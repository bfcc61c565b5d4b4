/-
# The keys under a path

The branches below a path of the trie are a tree of bits (`Rep.tree`), and
the path is a cursor on it (`Rep.tracks`), so enumerating from the path lists
the keys directly under it. They are the paths of the store that are one key
longer (`mem_keys_tree`): nested keys lie below the end of a key, where the
enumeration does not go.

Key definitions: `Rep.tree`, `Enumerates`.
-/
import BeeFish.Enumerate
import BeeFish.Store

namespace BeeFish

open BitCode

/-- The path stands on the branch at `w` below `path`. -/
def StandsAt (L : Layout) (path : List Key) (p : Path) (w : List Bool) : Prop :=
  ∃ n, L (bitsOf path ++ w) = some n ∧ p.index = n.place

namespace Rep

variable {db : Database} {Γ : Heap} {L : Layout} {M : Store} {path : List Key}

/-- Below a path no way starts with a zero. -/
theorem no_zero (hM : Refines L M) (path : List Key) : L (bitsOf path ++ [false]) = none := by
  by_contra hne
  obtain ⟨n, hn⟩ := Option.ne_none_iff_exists'.mp hne
  obtain ⟨js, -, hp⟩ := hM.present hn
  have hpath : path <+: js := bitsOf_isPrefix.mp ((List.prefix_append _ _).trans hp)
  have hjs : js ≠ path := by
    rintro rfl
    exact not_concat_isPrefix hp
  exact not_prefix_both hp (bitsOf_below hpath hjs)

/-- The tree of bits below a path. -/
def tree (h : Rep db Γ L) (hM : Refines L M) (hp : (M path).isSome) : BitTree where
  mem w := (L (bitsOf path ++ w)).isSome
  bound := db.size
  root := by rwa [List.append_nil, ← hM.isSome]
  closed {w b} hm := by
    obtain ⟨n, hn⟩ := Option.isSome_iff_exists.mp hm
    obtain ⟨m, hm⟩ := h.of_isPrefix hn (u := bitsOf path ++ w) ⟨[b], by simp⟩
    rw [hm]
    rfl
  le_bound {w} hm := by
    obtain ⟨n, hn⟩ := Option.isSome_iff_exists.mp hm
    have h1 := h.length_le hn
    have h2 := h.holds.lt_size (h.branch hn)
    simp only [List.length_append] at h1
    omega
  no_zero := by rw [no_zero hM]; rfl

variable (h : Rep db Γ L) (hM : Refines L M) (hp : (M path).isSome)

theorem mem_tree (w : List Bool) : (h.tree hM hp).mem w = (L (bitsOf path ++ w)).isSome := rfl

include h in
theorem place_bne_zero {w : List Bool} (c : Bool) :
    (L.place (w ++ [c]) != 0) = (L (w ++ [c])).isSome := by
  rw [Bool.eq_iff_iff, bne_iff_ne]
  exact h.place_ne_zero (by simp)

include h in
theorem child_of_some {w : List Bool} {n m : Node} {c : Bool} (hn : L w = some n)
    (hm : L (w ++ [c]) = some m) :
    Path.child db n.place c = (m.place, db) := by
  have h0 := (h.place_pos (by simp) hm).ne'
  simp only [Path.child, h.getBranch hn, Layout.branch_child, Layout.place_of hm, if_neg h0]

include h in
/-- The path can go where the layout goes. -/
theorem canGo {p : Path} {w : List Bool} (hR : StandsAt L path p w) (b : Bool) :
    PathBase.canGo db p b = (L (bitsOf path ++ (w ++ [b]))).isSome := by
  obtain ⟨n, hn, hi⟩ := hR
  have hcan : PathBase.canGo db p b = ((db.getBranch p.index).child b != 0) := by cases b <;> rfl
  rw [hcan, ← List.append_assoc, ← h.place_bne_zero, hi, h.getBranch hn, Layout.branch_child]

include h in
theorem go {p : Path} {w : List Bool} (hR : StandsAt L path p w) {b : Bool}
    (hb : (L (bitsOf path ++ (w ++ [b]))).isSome) :
    (PathBase.go db p b).2 = db ∧ StandsAt L path (PathBase.go db p b).1 (w ++ [b]) := by
  obtain ⟨n, hn, hi⟩ := hR
  rw [← List.append_assoc] at hb
  obtain ⟨m, hm⟩ := Option.isSome_iff_exists.mp hb
  have hgo : (PathBase.go db p b).2 = (Path.child db p.index b).2 ∧
      (PathBase.go db p b).1.index = (Path.child db p.index b).1 := by cases b <;> exact ⟨rfl, rfl⟩
  rw [hi, h.child_of_some hn hm] at hgo
  exact ⟨hgo.1, m, by rwa [← List.append_assoc], hgo.2⟩

/-- The path is a cursor on the tree, also past the ends of keys. -/
theorem tracksOn (P : List Bool → Prop) : TracksOn P db (h.tree hM hp) (StandsAt L path) where
  canGo hR _ b := h.canGo hR b
  go hR _ _ hm := h.go hR hm
  goUp {p w b} hR _ := by
    obtain ⟨n, hn, hi⟩ := hR
    obtain ⟨m, hm⟩ := h.of_isPrefix hn (u := bitsOf path ++ w) ⟨[b], by simp⟩
    refine ⟨m, hm, ?_⟩
    show (db.getBranch p.index).parent = m.place
    rw [hi, h.getBranch hn]
    show L.place (bitsOf path ++ (w ++ [b])).dropLast = m.place
    rw [← List.append_assoc, List.dropLast_concat, Layout.place_of hm]
  isDeadEnd {p w} hR _ := by
    obtain ⟨n, hn, hi⟩ := hR
    rw [mem_tree, mem_tree, ← List.append_assoc, ← List.append_assoc, ← h.place_bne_zero,
      ← h.place_bne_zero]
    show (db.getBranch p.index).isDeadEnd = _
    rw [hi, h.getBranch hn, Bool.not_or]
    simp only [bne, Bool.not_not]
    rfl

theorem tracks : Tracks db (h.tree hM hp) (StandsAt L path) := (h.tracksOn hM hp (Stays 0)).tracks

/-- What is below a path leads along keys on end. -/
theorem grounded_tree {w : List Bool} (hw : (h.tree hM hp).mem w = true) : Grounded w := by
  obtain ⟨n, hn⟩ := Option.isSome_iff_exists.mp hw
  obtain ⟨ks, -, hks⟩ := hM.present hn
  obtain ⟨t, rfl⟩ := bitsOf_isPrefix.mp ((List.prefix_append (bitsOf path) w).trans hks)
  rw [bitsOf_append, List.prefix_append_right_inj] at hks
  refine Grounded.of_isPrefix (grounded_flatten ?_) hks
  simp only [List.mem_map]
  rintro _ ⟨k, -, rfl⟩
  exact k.isCode

/-- The keys of the tree below a path are the keys directly under it. -/
theorem mem_keys_tree {k : List Bool} :
    k ∈ (h.tree hM hp).keys ↔ ∃ key : Key, key.bits = k ∧ (M (path ++ [key])).isSome := by
  rw [BitTree.mem_keys]
  constructor
  · rintro ⟨hk, hm⟩
    refine ⟨⟨k, hk⟩, rfl, ?_⟩
    rwa [hM.isSome, bitsOf_concat]
  · rintro ⟨key, rfl, hk⟩
    rw [hM.isSome, bitsOf_concat] at hk
    exact ⟨key.isCode, hk⟩

end Rep

/-! ### Enumerating from a path -/

section

variable {α : Type} [Encoded α]

/-- What enumerating from a path with an empty stack comes to: `next` gives
the items, then false with the path back where it was and the stack empty;
`goToMin` and `min` give the first of them, and fail if there is none. -/
structure Enumerates (db : Database) (p : Path) (items : List α) : Prop where
  next : ∃ c, Returns (Walk.nextItems · ⟨db, p, .empty⟩) (items, c) ∧
    c.db = db ∧ c.path.index = p.index ∧ c.stack.size = 0
  goToMin : ∃ c, Returns (Walk.goToMin · ⟨db, p, .empty⟩) (!items.isEmpty, c) ∧
    c.stack.bits = (items.head?.map encode).getD []
  min : Returns (fun fuel => Walk.min fuel db p) items.head?

theorem Store.visit_concat (M : Store) (path : List Key) (key : Key) :
    M.visit path (path ++ [key]) = M (path ++ [key]) :=
  if_neg fun hp => by
    have hlen := hp.length_le
    rw [List.length_append, List.length_singleton] at hlen
    omega

/-- The walk to a path, after which it is there. -/
theorem Rep.walk {db : Database} {Γ : Heap} {L : Layout} {M : Store} (h : Rep db Γ L)
    (hM : Refines L M) (path : List Key) :
    ∃ Γ' L' n, n.place = (Path.getAll db .root path).1.index ∧
      Rep (Path.getAll db .root path).2 Γ' L' ∧
      L' (bitsOf path) = some n ∧ Refines L' (M.visit path) ∧ (M.visit path path).isSome := by
  obtain ⟨r, hr, h0⟩ := h.root
  obtain ⟨Γ', L', n, hn, h', hw, hg⟩ := h.getAll path (p := .root) hr h0.symm
  rw [List.nil_append] at hw hg
  have hM' := hM.grown h'.toWF hg
  refine ⟨Γ', L', n, hn, h', hw, hM', ?_⟩
  rw [hM'.isSome, hw]
  rfl

variable [LawfulEncoded α]

/-- The keys directly under a path, as the items that they were encoded from. -/
theorem Rep.exists_items {db : Database} {Γ : Heap} {L : Layout} {M : Store} {path : List Key}
    (h : Rep db Γ L)
    (hM : Refines L M) (hp : (M path).isSome)
    (hα : ∀ key, (M (path ++ [key])).isSome → ∃ a : α, key = .of a) :
    ∃ items : List α, items.map encode = (h.tree hM hp).keys ∧ ∀ a, a ∈ items ↔
      (M (path ++ [.of a])).isSome := by
  obtain ⟨items, hi⟩ : ∃ items : List α, items.map encode = (h.tree hM hp).keys := by
    apply BeeFish.exists_items
    intro k hk
    obtain ⟨key, rfl, hkey⟩ := (h.mem_keys_tree hM hp).mp hk
    obtain ⟨a, rfl⟩ := hα key hkey
    exact ⟨a, rfl⟩
  refine ⟨items, hi, fun a => ?_⟩
  calc a ∈ items
    _ ↔ encode a ∈ items.map encode :=
      (List.mem_map_of_injective fun _ _ h => encode_injective h).symm
    _ ↔ ∃ key : Key, key.bits = encode a ∧ (M (path ++ [key])).isSome := by
      rw [hi, h.mem_keys_tree hM hp]
    _ ↔ (M (path ++ [.of a])).isSome := by
      constructor
      · rintro ⟨key, hkey, hs⟩
        rwa [show key = .of a from Key.ext hkey] at hs
      · exact fun hs => ⟨.of a, rfl, hs⟩

theorem Rep.enumerates {db : Database} {Γ : Heap} {L : Layout} {M : Store} {path : List Key}
    (h : Rep db Γ L)
    (hM : Refines L M) (hp : (M path).isSome) {p : Path} (hR : StandsAt L path p [])
    {items : List α}
    (hi : items.map encode = (h.tree hM hp).keys) : Enumerates db p items where
  next := by
    obtain ⟨c, hr, hat⟩ := nextItems_all (h.tracks hM hp) hR hi
    refine ⟨c, hr, hat.db, ?_, hat.stack.size⟩
    obtain ⟨n, hn, hpn⟩ := hR
    obtain ⟨m, hm, hcm⟩ := hat.path
    rw [hn] at hm
    rw [hpn, hcm, Option.some.inj hm]
  goToMin := goToMin_first (h.tracks hM hp) hR hi
  min := min_first (h.tracks hM hp) hR hi

/-- **Enumeration lists the keys under a path.** After any run of operations,
calls of `next(stack, item)` from a path give the keys directly under it, each
once, in lexicographic order of their bits, whatever is nested below them. The
items are of the type the keys under the path were encoded from; bits are
items too (`Key`). -/
theorem next_enumerates (ops : List Op) (path : List Key)
    (hα : ∀ key, ((applyAll .empty ops).2 (path ++ [key])).isSome → ∃ a : α, key = .of a) :
    ∃ (answers : List Answer) (db : Database) (items : List α),
      runAll .create ops = some (answers, db) ∧
      Enumerates (Path.getAll db .root path).2 (Path.getAll db .root path).1 items ∧
      (items.map encode).Pairwise (· < ·) ∧
      ∀ a, a ∈ items ↔ ((applyAll .empty ops).2 (path ++ [.of a])).isSome := by
  obtain ⟨db, he, Γ₀, L₀, h₀, hM₀⟩ := stores_create.runAll ops
  obtain ⟨Γ, L, n, hn, h, hw, hM, hp⟩ := h₀.walk hM₀ path
  obtain ⟨items, hi, hmem⟩ := h.exists_items hM hp fun key hkey =>
    hα key (by rwa [Store.visit_concat] at hkey)
  refine ⟨_, db, items, he, h.enumerates hM hp ⟨n, by simpa using hw, hn.symm⟩ hi, ?_,
    fun a => by rw [hmem, Store.visit_concat]⟩
  rw [hi]
  exact (h.tree hM hp).sorted_keys

end

/-- Two numbers under the root, and one below the second. -/
def twoNumbers : List Op := [⟨[.of 2], .setData [7]⟩, ⟨[.of 5, .of 3], .hasData⟩]

theorem next_enumerates_two : ∃ (answers : List Answer) (db : Database) (items : List ℕ),
    runAll .create twoNumbers = some (answers, db) ∧
    Enumerates (Path.getAll db .root []).2 (Path.getAll db .root []).1 items ∧
    (items.map encode).Pairwise (· < ·) ∧
    ∀ a, a ∈ items ↔ ((applyAll .empty twoNumbers).2 ([] ++ [.of a])).isSome :=
  next_enumerates twoNumbers [] fun key hkey => by
    by_cases h2 : key = .of (2 : ℕ)
    · exact ⟨2, h2⟩
    · by_cases h5 : key = .of (5 : ℕ)
      · exact ⟨5, h5⟩
      · simp [twoNumbers, applyAll, Op.apply, Action.apply, Store.put, Store.visit, Store.empty, h2,
          h5] at hkey

end BeeFish
