/-
# Queries enumerate set expressions

A `CursorExpr` is how a cursor is put together from paths of the trie, and
`meaning` is the set of keys it stands for: the keys under a path or a word,
intersections, unions, and the bounds without an operand. The cursor that is
built (`CursorExpr.build`) is a cursor on a tree with just these keys
(`CursorExpr.tracks`), so enumerating it lists the set
(`next_enumerates_query`).

Key definitions: `CursorExpr`, `CursorExpr.build`, `CursorExpr.meaning`.
-/
import BeeFish.QueryPath
import Mathlib.Data.Set.Basic

namespace BeeFish

open BitCode

inductive CursorExpr where
  | path (ks : List Key)
  | andPath (a b : CursorExpr)
  | orPath (a b : CursorExpr)
  | notPath (a : CursorExpr) (bounds : List Key)
  | wordPath (words : List Key) (word : BString)

namespace CursorExpr

/-- The cursor, built from its operands, which it copies. -/
def build (toLower : BString → BString) (db : Database) : CursorExpr → Cursor × Database
  | path ks => (.path (Path.getAll db .root ks).1, (Path.getAll db .root ks).2)
  | andPath a b =>
    let (a, db) := a.build toLower db
    let (b, db) := b.build toLower db
    (.andPath a.copy b.copy, db)
  | orPath a b =>
    let (a, db) := a.build toLower db
    let (b, db) := b.build toLower db
    (.orPath a.copy b.copy 0 0, db)
  | notPath a bounds =>
    let (a, db) := a.build toLower db
    let (bounds, db) := Path.getAll db .root bounds
    (.notPath a.copy bounds.copy .empty 0, db)
  | wordPath words word =>
    let (words, db) := Path.getAll db .root words
    (.newWordPath toLower db words.copy word, db)

/-- The paths the cursor is built from. -/
def paths : CursorExpr → List (List Key)
  | path ks => [ks]
  | andPath a b => a.paths ++ b.paths
  | orPath a b => a.paths ++ b.paths
  | notPath a bounds => bounds :: a.paths
  | wordPath words _ => [words]

/-- The keys directly under a path. -/
def under (M : Store) (ks : List Key) : Set Key := {key | (M (ks ++ [key])).isSome}

/-- The set of keys that the expression stands for. -/
def meaning (toLower : BString → BString) (M : Store) : CursorExpr → Set Key
  | path ks => under M ks
  | andPath a b => a.meaning toLower M ∩ b.meaning toLower M
  | orPath a b => a.meaning toLower M ∪ b.meaning toLower M
  | notPath a bounds => under M bounds \ a.meaning toLower M
  | wordPath words word => under M (words ++ [.of (toLower word)])

end CursorExpr

/-! ### Walking a path that is there -/

namespace Rep

variable {db : Database} {Γ : Heap} {L : Layout} {M : Store}

theorem writeBits_of_some (h : Rep db Γ L) : ∀ {v w : List Bool} {n m : Node} {p : Path},
    L w = some n →
    p.index = n.place → L (w ++ v) = some m →
    (Path.writeBits db p v).1.index = m.place ∧ (Path.writeBits db p v).2 = db
  | [], w, n, m, p, hw, hp, hm => by
    rw [List.append_nil, hw] at hm
    exact ⟨hp.trans (congrArg Node.place (Option.some.inj hm)), rfl⟩
  | c :: v, w, n, m, ⟨_, k⟩, hw, rfl, hm => by
    obtain ⟨j, hj⟩ := h.of_isPrefix hm (u := w ++ [c]) ⟨v, by simp⟩
    have hbit : (Path.writeBit db ⟨n.place, k⟩ c).1.index = j.place ∧
      (Path.writeBit db ⟨n.place, k⟩ c).2 = db := by
      have hc := h.child_of_some hw hj
      cases c <;> simp [Path.writeBit, Path.goLeft, Path.goRight, hc]
    rw [Path.writeBits]
    simp only [hbit.2]
    exact writeBits_of_some h hj hbit.1 (by simpa using hm)

theorem getAll_of_some (h : Rep db Γ L) : ∀ {ks : List Key} {w : List Bool} {n m : Node} {p : Path},
    L w = some n →
    p.index = n.place → L (w ++ bitsOf ks) = some m →
    (Path.getAll db p ks).1.index = m.place ∧ (Path.getAll db p ks).2 = db
  | [], w, n, m, p, hw, hp, hm => by
    rw [bitsOf_nil, List.append_nil, hw] at hm
    exact ⟨hp.trans (congrArg Node.place (Option.some.inj hm)), rfl⟩
  | key :: ks, w, n, m, p, hw, hp, hm => by
    have hb : w ++ bitsOf (key :: ks) = w ++ key.bits ++ bitsOf ks := by simp [bitsOf]
    rw [hb] at hm
    obtain ⟨j, hj⟩ := h.of_isPrefix hm (List.prefix_append _ _)
    obtain ⟨h1, h2⟩ := h.writeBits_of_some (p := p.copy) hw hp hj
    rw [Path.getAll]
    simp only [Path.get, h2]
    exact getAll_of_some h hj h1 hm

/-- A path that is there is found where it is, and nothing is made. -/
theorem getAll_root (h : Rep db Γ L) (hM : Refines L M) {ks : List Key} (hp : (M ks).isSome) :
    StandsAt L ks (Path.getAll db .root ks).1 [] ∧ (Path.getAll db .root ks).2 = db := by
  obtain ⟨r, hr, h0⟩ := h.root
  rw [hM.isSome] at hp
  obtain ⟨m, hm⟩ := Option.isSome_iff_exists.mp hp
  obtain ⟨h1, h2⟩ := h.getAll_of_some (p := .root) hr h0.symm (by simpa using hm)
  exact ⟨⟨m, by simpa using hm, h1⟩, h2⟩

end Rep

/-- Under a path that is not there are no keys. -/
theorem under_eq_empty {db : Database} {Γ : Heap} {L : Layout} {M : Store} (h : Rep db Γ L)
    (hM : Refines L M)
    {ks : List Key} (hp : M ks = none) : CursorExpr.under M ks = ∅ := by
  apply Set.eq_empty_of_forall_notMem
  intro key hk
  have hk : (M (ks ++ [key])).isSome := hk
  rw [hM.isSome, bitsOf_concat] at hk
  obtain ⟨m, hm⟩ := Option.isSome_iff_exists.mp hk
  obtain ⟨n, hn⟩ := h.of_isPrefix hm (List.prefix_append _ _)
  rw [hM.of_some hn] at hp
  cases hp

/-! ### The cursor and its tree -/

/-- The cursor is at the start of the tree, and so is its copy. -/
def OnTree (P : List Bool → Prop) (db : Database) (c : Cursor) (T : BitTree) : Prop :=
  ∃ R : Cursor → List Bool → Prop, TracksOn P db T R ∧ R c [] ∧ ∀ x, R x [] → R x.copy []

namespace OnTree

variable {P : List Bool → Prop} {db : Database} {a b : Cursor} {A B : BitTree}
    {R : Path → List Bool → Prop} {p : Path}

theorem copy (h : OnTree P db a A) : OnTree P db a.copy A := by
  obtain ⟨R, hT, hR, hc⟩ := h
  exact ⟨R, hT, hc a hR, hc⟩

theorem andPath (ha : OnTree P db a A) (hb : OnTree P db b B) :
    OnTree P db (.andPath a b) (A.inter B) := by
  obtain ⟨RA, hA, hRA, hcA⟩ := ha
  obtain ⟨RB, hB, hRB, hcB⟩ := hb
  refine ⟨_, andPath_tracks hA hB, ⟨a, b, rfl, hRA, hRB⟩, ?_⟩
  rintro _ ⟨x, y, rfl, hx, hy⟩
  exact ⟨_, _, rfl, hcA x hx, hcB y hy⟩

theorem orPath (ha : OnTree P db a A) (hb : OnTree P db b B) :
    OnTree P db (.orPath a b 0 0) (A.union B) := by
  obtain ⟨RA, hA, hRA, hcA⟩ := ha
  obtain ⟨RB, hB, hRB, hcB⟩ := hb
  refine ⟨_, orPath_tracks hA hB, ⟨a, b, [], [], [], [], rfl, rfl, rfl, .here hRA, .here hRB,
    Or.inl rfl⟩, ?_⟩
  rintro _ ⟨x, y, u, v, u', v', rfl, hw, hw', hx, hy, -⟩
  obtain ⟨rfl, rfl⟩ := List.append_eq_nil_iff.mp hw.symm
  obtain ⟨rfl, rfl⟩ := List.append_eq_nil_iff.mp hw'.symm
  exact ⟨_, _, [], [], [], [], rfl, rfl, rfl, .here (hcA x hx.stands), .here (hcB y hy.stands),
    Or.inl rfl⟩

theorem path (hA : TracksOn P db A R) (hcopy : ∀ p, R p [] → R p.copy []) (hR : R p []) :
    OnTree P db (.path p) A := by
  refine ⟨_, path_tracks hA, ⟨p, rfl, hR⟩, ?_⟩
  rintro _ ⟨q, rfl, hq⟩
  exact ⟨_, rfl, hcopy q hq⟩

theorem notPath (hb : OnTree P db b B) (hA : TracksOn P db A R) (hcopy : ∀ p, R p [] → R p.copy [])
    (hR : R p [])
    (hground : ∀ w, A.mem w = true → Grounded w) :
    OnTree P db (.notPath b p .empty 0) (A.diff B) := by
  obtain ⟨RB, hB, hRB, hcB⟩ := hb
  refine ⟨_, notPath_tracks hA hB hground,
    ⟨⟨b, p, .empty, [], [], rfl, rfl, .here hRB, hR, stackAt_empty, A.root⟩, (A.diff B).root⟩, ?_⟩
  rintro _ ⟨⟨x, q, s, u, v, rfl, hw, hx, hq, hs, hm⟩, hd⟩
  obtain ⟨rfl, rfl⟩ := List.append_eq_nil_iff.mp hw.symm
  exact ⟨⟨_, _, _, [], [], rfl, rfl, .here (hcB x hx.stands), hcopy q hq, ⟨hs.bits, rfl⟩, hm⟩, hd⟩

theorem wordPath (words : Path) (word : BString) (hA : TracksOn P db A R)
    (hcopy : ∀ p, R p [] → R p.copy []) (hR : R p []) :
    OnTree P db (.wordPath words word (some p)) A := by
  refine ⟨_, wordPath_tracks hA, ⟨words, word, p, rfl, hR⟩, ?_⟩
  rintro _ ⟨ws, w, q, rfl, hq⟩
  exact ⟨_, _, _, rfl, hcopy q hq⟩

theorem wordPath_none (words : Path) (word : BString) :
    OnTree P db (.wordPath words word none) .leaf := by
  refine ⟨_, wordPath_none_tracks, ⟨words, word, rfl, rfl⟩, ?_⟩
  rintro _ ⟨ws, w, rfl, -⟩
  exact ⟨_, _, rfl, rfl⟩

end OnTree

/-! ### The cursor and its set -/

/-- The cursor is one on a tree with the keys of `S`, and so is its copy. -/
def Denotes (db : Database) (c : Cursor) (S : Set Key) : Prop :=
  ∃ (T : BitTree) (R : Cursor → List Bool → Prop), Tracks db T R ∧ R c [] ∧
    (∀ x, R x [] → R x.copy []) ∧
    ∀ key : Key, key.bits ∈ T.keys ↔ key ∈ S

theorem OnTree.denotes {db : Database} {c : Cursor} {T : BitTree} {S : Set Key}
    (h : OnTree (Stays 0) db c T)
    (hS : ∀ key : Key, key.bits ∈ T.keys ↔ key ∈ S) : Denotes db c S := by
  obtain ⟨R, hT, hR, hc⟩ := h
  exact ⟨T, R, hT.tracks, hR, hc, hS⟩

theorem standsAt_copy {L : Layout} {ks : List Key} {p : Path} {w : List Bool}
    (h : StandsAt L ks p w) :
    StandsAt L ks p.copy w := h

namespace Denotes

variable {db : Database} {a b : Cursor} {S S' : Set Key}

theorem onTree (h : Denotes db a S) : ∃ T, OnTree (Stays 0) db a T ∧ ∀ key : Key,
    key.bits ∈ T.keys ↔ key ∈ S := by
  obtain ⟨T, R, hT, hR, hc, hS⟩ := h
  exact ⟨T, ⟨R, hT.on, hR, hc⟩, hS⟩

theorem copy (h : Denotes db a S) : Denotes db a.copy S := by
  obtain ⟨T, hT, hS⟩ := h.onTree
  exact hT.copy.denotes hS

theorem andPath (ha : Denotes db a S) (hb : Denotes db b S') :
    Denotes db (.andPath a b) (S ∩ S') := by
  obtain ⟨A, hA, hSA⟩ := ha.onTree
  obtain ⟨B, hB, hSB⟩ := hb.onTree
  refine (hA.andPath hB).denotes fun key => ?_
  rw [BitTree.mem_keys_inter, hSA, hSB]
  rfl

theorem orPath (ha : Denotes db a S) (hb : Denotes db b S') :
    Denotes db (.orPath a b 0 0) (S ∪ S') := by
  obtain ⟨A, hA, hSA⟩ := ha.onTree
  obtain ⟨B, hB, hSB⟩ := hb.onTree
  refine (hA.orPath hB).denotes fun key => ?_
  rw [BitTree.mem_keys_union, hSA, hSB]
  rfl

section

variable {Γ : Heap} {L : Layout} {M : Store} {ks : List Key} {p : Path}

/-- The keys of the tree below a path are those under it. -/
theorem mem_under (h : Rep db Γ L) (hM : Refines L M) (hp : (M ks).isSome) (key : Key) :
    key.bits ∈ (h.tree hM hp).keys ↔ key ∈ CursorExpr.under M ks := by
  rw [h.mem_keys_tree hM hp]
  constructor
  · rintro ⟨k, hk, hs⟩
    obtain rfl : k = key := Key.ext hk
    exact hs
  · exact fun hs => ⟨key, rfl, hs⟩

theorem path (h : Rep db Γ L) (hM : Refines L M) (hp : (M ks).isSome) (hR : StandsAt L ks p []) :
    Denotes db (.path p) (CursorExpr.under M ks) :=
  (OnTree.path (h.tracksOn hM hp _) (fun _ => standsAt_copy) hR).denotes (mem_under h hM hp)

theorem notPath (ha : Denotes db a S) (h : Rep db Γ L) (hM : Refines L M) (hp : (M ks).isSome)
    (hR : StandsAt L ks p []) : Denotes db (.notPath a p .empty 0) (CursorExpr.under M ks \ S) := by
  obtain ⟨A, hA, hSA⟩ := ha.onTree
  refine (hA.notPath (h.tracksOn hM hp _) (fun _ => standsAt_copy) hR fun _ =>
    h.grounded_tree hM hp).denotes fun key => ?_
  rw [BitTree.mem_keys_diff, hSA, mem_under h hM hp]
  rfl

theorem wordPath_some (words : Path) (word : BString) (h : Rep db Γ L) (hM : Refines L M)
    (hp : (M ks).isSome)
    (hR : StandsAt L ks p []) :
    Denotes db (.wordPath words word (some p)) (CursorExpr.under M ks) :=
  (OnTree.wordPath words word (h.tracksOn hM hp _) (fun _ => standsAt_copy) hR).denotes
    (mem_under h hM hp)

theorem wordPath_none (db : Database) (words : Path) (word : BString) :
    Denotes db (.wordPath words word none) ∅ := by
  refine (OnTree.wordPath_none words word).denotes fun key => ?_
  rw [BitTree.keys_leaf]
  simp

/-- The cursor of a word has the path of the word, or nothing if the word is
not there. -/
theorem newWordPath_eq (toLower : BString → BString) (word : BString) (h : Rep db Γ L)
    (hM : Refines L M)
    (hR : StandsAt L ks p []) :
    (∃ q, Cursor.newWordPath toLower db p word = .wordPath p word (some q) ∧
      (M (ks ++ [.of (toLower word)])).isSome ∧
      StandsAt L (ks ++ [.of (toLower word)]) q []) ∨
    Cursor.newWordPath toLower db p word = .wordPath p word none ∧
      M (ks ++ [.of (toLower word)]) = none := by
  obtain ⟨n, hn, hi⟩ := hR
  rw [List.append_nil] at hn
  have hp : p = ⟨n.place, p.count⟩ := by rw [← hi]
  have hc := h.contains hn p.count (.of (toLower word))
  have hb : bitsOf ks ++ (Key.of (toLower word)).bits = bitsOf (ks ++ [.of (toLower word)]) :=
    (bitsOf_concat _ _).symm
  rw [← hp, hb] at hc
  simp only [Cursor.newWordPath, hc]
  cases hm : L (bitsOf (ks ++ [.of (toLower word)])) with
  | some m =>
    have hw : (M (ks ++ [.of (toLower word)])).isSome := by rw [hM.isSome, hm]; rfl
    obtain ⟨h1, -⟩ := h.writeBits_of_some (p := p.copy) hn hi (hb ▸ hm)
    simp only [Option.isSome_some, if_true]
    exact Or.inl ⟨_, rfl, hw, m, by simpa using hm, h1⟩
  | none =>
    have hw : M (ks ++ [.of (toLower word)]) = none := by rw [← hM.value, hm]; rfl
    exact Or.inr ⟨rfl, hw⟩

/-- The cursor of a word is that of its path, if it is there. -/
theorem newWordPath (toLower : BString → BString) (word : BString) (h : Rep db Γ L)
    (hM : Refines L M)
    (hR : StandsAt L ks p []) :
    Denotes db (.newWordPath toLower db p word)
      (CursorExpr.under M (ks ++ [.of (toLower word)])) := by
  rcases newWordPath_eq toLower word h hM hR with ⟨q, hq, hw, hq'⟩ | ⟨hq, hw⟩
  · rw [hq]
    exact .wordPath_some _ _ h hM hw hq'
  · rw [hq, under_eq_empty h hM hw]
    exact .wordPath_none db _ _

end

end Denotes

theorem Refines.isSome_of_standsAt {L : Layout} {M : Store} (hM : Refines L M)
    {ks : List Key} {p : Path}
    (h : StandsAt L ks p []) : (M ks).isSome := by
  obtain ⟨n, hn, -⟩ := h
  rw [List.append_nil] at hn
  rw [hM.isSome, hn]
  rfl

/-- The cursor that is built stands for the meaning, and building it changes
nothing. -/
theorem CursorExpr.denotes (toLower : BString → BString) {db : Database} {Γ : Heap} {L : Layout}
    {M : Store}
    (h : Rep db Γ L) (hM : Refines L M) : ∀ e : CursorExpr, (∀ ks ∈ e.paths, (M ks).isSome) →
    (e.build toLower db).2 = db ∧ Denotes db (e.build toLower db).1 (e.meaning toLower M)
  | path ks, hp => by
    have hks := hp ks (by simp [paths])
    obtain ⟨hR, hdb⟩ := h.getAll_root hM hks
    exact ⟨hdb, .path h hM hks hR⟩
  | andPath a b, hp => by
    obtain ⟨hdb, ha⟩ := denotes toLower h hM a fun ks hk => hp ks (List.mem_append_left _ hk)
    obtain ⟨hdb', hb⟩ := denotes toLower h hM b fun ks hk => hp ks (List.mem_append_right _ hk)
    simp only [build, hdb, hdb']
    exact ⟨trivial, ha.copy.andPath hb.copy⟩
  | orPath a b, hp => by
    obtain ⟨hdb, ha⟩ := denotes toLower h hM a fun ks hk => hp ks (List.mem_append_left _ hk)
    obtain ⟨hdb', hb⟩ := denotes toLower h hM b fun ks hk => hp ks (List.mem_append_right _ hk)
    simp only [build, hdb, hdb']
    exact ⟨trivial, ha.copy.orPath hb.copy⟩
  | notPath a bounds, hp => by
    have hks := hp bounds (by simp [paths])
    obtain ⟨hdb, ha⟩ := denotes toLower h hM a fun ks hk => hp ks (List.mem_cons_of_mem _ hk)
    obtain ⟨hR, hdb'⟩ := h.getAll_root hM hks
    simp only [build, hdb, hdb']
    exact ⟨trivial, ha.copy.notPath h hM hks (standsAt_copy hR)⟩
  | wordPath words word, hp => by
    have hks := hp words (by simp [paths])
    obtain ⟨hR, hdb⟩ := h.getAll_root hM hks
    simp only [build, hdb]
    exact ⟨trivial, .newWordPath toLower word h hM (standsAt_copy hR)⟩

/-- **A query enumerates its set expression.** After any run of operations,
calls of `next(stack, item)` on a cursor built from paths that are there give
the keys of its meaning, each once, in lexicographic order of their bits. -/
theorem next_enumerates_query {α : Type} [Encoded α] [LawfulEncoded α] (toLower : BString → BString)
    (ops : List Op)
    (e : CursorExpr) (hpaths : ∀ ks ∈ e.paths, ((applyAll .empty ops).2 ks).isSome)
    (hα : ∀ key ∈ e.meaning toLower (applyAll .empty ops).2, ∃ a : α, key = .of a) :
    ∃ (answers : List Answer) (db : Database) (items : List α) (c : Walk Cursor),
      runAll .create ops = some (answers, db) ∧
      Returns (Walk.nextItems · ⟨(e.build toLower db).2, (e.build toLower db).1, .empty⟩)
        (items, c) ∧
      c.stack.size = 0 ∧ (items.map encode).Pairwise (· < ·) ∧
      ∀ a, a ∈ items ↔ .of a ∈ e.meaning toLower (applyAll .empty ops).2 := by
  obtain ⟨db, he, Γ, L, h, hM⟩ := stores_create.runAll ops
  obtain ⟨hdb, T, R, hT, hR, -, hS⟩ := e.denotes toLower h hM hpaths
  obtain ⟨items, hi⟩ : ∃ items : List α, items.map encode = T.keys := by
    refine exists_items fun k hk => ?_
    obtain ⟨a, ha⟩ := hα ⟨k, (T.mem_keys.mp hk).1⟩ ((hS _).mp hk)
    exact ⟨a, (congrArg Key.bits ha).symm⟩
  obtain ⟨c, hr, hat⟩ := nextItems_all hT hR hi
  refine ⟨_, db, items, c, he, by rw [hdb]; exact hr, hat.stack.size, hi ▸ T.sorted_keys,
    fun a => ?_⟩
  rw [← hS, ← hi]
  constructor
  · exact fun ha => List.mem_map_of_mem ha
  · intro hk
    obtain ⟨b, hb, hba⟩ := List.mem_map.mp hk
    rwa [← encode_injective hba]

/-- Two numbers under a number, with one below the second, and the first of them
under a word. -/
def numbersAndWord : List Op :=
  [⟨[.of 1, .of 2], .hasData⟩, ⟨[.of 1, .of 3, .of 4], .hasData⟩,
    ⟨[.of (text "a"), .of 2], .hasData⟩]

/-- The numbers under the number, without those under the word. -/
def notWord : CursorExpr := .notPath (.wordPath [] (text "a")) [.of 1]

theorem paths_notWord : ∀ ks ∈ notWord.paths, ((applyAll .empty numbersAndWord).2 ks).isSome := by
  intro ks hks
  simp only [notWord, CursorExpr.paths, List.mem_cons, List.not_mem_nil, or_false] at hks
  rcases hks with rfl | rfl <;> simp [numbersAndWord, applyAll, Op.apply, Action.apply, Store.visit]

theorem number_of_notWord : ∀ key ∈ notWord.meaning id (applyAll .empty numbersAndWord).2, ∃ n : ℕ,
    key = .of n := by
  rintro key ⟨hkey, -⟩
  have hkey : ((applyAll .empty numbersAndWord).2 ([.of 1] ++ [key])).isSome := hkey
  by_cases h2 : key = .of (2 : ℕ)
  · exact ⟨2, h2⟩
  · by_cases h3 : key = .of (3 : ℕ)
    · exact ⟨3, h3⟩
    · simp [numbersAndWord, applyAll, Op.apply, Action.apply, Store.visit, Store.empty, h2,
        h3] at hkey

theorem next_enumerates_query_not :
    ∃ (answers : List Answer) (db : Database) (items : List ℕ) (c : Walk Cursor),
      runAll .create numbersAndWord = some (answers, db) ∧
      Returns (Walk.nextItems · ⟨(notWord.build id db).2, (notWord.build id db).1, .empty⟩)
        (items, c) ∧
      c.stack.size = 0 ∧ (items.map encode).Pairwise (· < ·) ∧
      ∀ a, a ∈ items ↔ .of a ∈ notWord.meaning id (applyAll .empty numbersAndWord).2 :=
  next_enumerates_query id numbersAndWord notWord paths_notWord number_of_notWord

end BeeFish
