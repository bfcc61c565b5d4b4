/-
# Clearing while iterating

`JSONPath::clear` goes over the keys under a path with an `Iterable` and calls
`clear(key)` of a second path at the node for each key that it comes to. The
walk then stands on what is left of a deleted branch, up to the bit after the
last fork. It keeps its footing (`Walk.Ready.clearKey`), and all keys that are
left are ahead of it, so the next one is the first of them; at the end no key
is left (`clearEach_all`).

Key definitions: `Walk.clearEach`, `Walk.Ready`.
-/
import BeeFish.Children
import Mathlib.Data.List.Sort

namespace BeeFish

open BitCode BitTree

namespace Walk

section

variable {α : Type} [Encoded α] [LawfulEncoded α]

/-- The body of the loop, with the rounds that follow. At the end the stack is
empty, as that of `end()` is. -/
def clearItem (second : Path) (rest : Walk Path → Option (List α × Walk Path)) :
    Option α × Walk Path → Option (List α × Walk Path)
  | (none, c) => some ([], c)
  | (some item, c) => do
    let db ← Path.clearKey c.db second (.of item)
    (rest { c with db := db }).map fun (items, c) => (item :: items, c)

/-- `for (auto key : iterable) second.clear(key)`: the keys it came to. -/
def clearEach (second : Path) : ℕ → Walk Path → Option (List α × Walk Path)
  | 0, _ => none
  | fuel + 1, c => (nextItem fuel c).bind (clearItem second (clearEach second fuel))

/-- The loop over the keys under a path. -/
def clearAll (fuel : ℕ) (db : Database) (path second : Path) : Option (List α × Walk Path) :=
  clearEach second fuel ⟨db, PathBase.copy path, .empty⟩

end

/-! ### Keys that are ahead -/

section

variable {σ : Type} [PathBase σ] {db : Database} {T : BitTree} {R : σ → List Bool → Prop}
    {c : Walk σ} {w : List Bool}

/-- If all keys are ahead, `next` comes to the first of them. -/
theorem next_lands_ahead (hT : Tracks db T R) (h : c.At db R w) (hw : w = [] ∨ IsCode w)
    (hahead : ∀ k ∈ T.keys, Ahead w k) :
    ∃ r, Returns (next · c) r ∧ Lands T db R T.keys r := by
  rcases hw with rfl | hw
  · exact next_lands_start hT h
  · have hlater : T.later w = T.keys := by
      apply (T.sorted_later (Or.inr hw)).eq_of_mem_iff T.sorted_keys
      intro k
      rw [T.mem_later (Or.inr hw), and_iff_left_iff_imp]
      exact fun hk => (hahead k hk).resolve_left hw.ne_nil
    rw [← hlater]
    exact next_lands hT hw h

/-- The keys after the first one are ahead of it. -/
theorem ahead_of_sorted {k : List Bool} {ks : List (List Bool)} (hk : IsCode k)
    (hks : ∀ j ∈ ks, IsCode j)
    (hsorted : (k :: ks).Pairwise (· < ·)) : ∀ j ∈ ks, Ahead k j := fun j hj =>
  Or.inr (rightOf_of_lt hk (hks j hj) ((List.pairwise_cons.mp hsorted).1 j hj))

end

end Walk

/-! ### Without one key -/

namespace Store

variable {M : Store} {path : List Key} {key : Key}

theorem remove_removeBelow : (M.remove (path ++ [key])).removeBelow path = M.removeBelow path := by
  funext ks
  unfold removeBelow
  split_ifs with h
  · rfl
  · refine if_neg fun hp => h ⟨(List.prefix_append path [key]).trans hp, ?_⟩
    rintro rfl
    simpa using hp.length_le

theorem remove_concat_of_ne {other : Key} (h : other ≠ key) :
    M.remove (path ++ [key]) (path ++ [other]) = M (path ++ [other]) := by
  refine if_neg fun hp => h ?_
  simpa using (hp.eq_of_length (by simp)).symm

theorem remove_self : M.remove path path = none := if_pos List.prefix_rfl

end Store

/-- Where no key is under a path, nothing is below it. -/
theorem Rep.removeBelow_of_keys {db : Database} {Γ : Heap} {L : Layout} {M : Store}
    {path : List Key} (h : Rep db Γ L)
    (hM : Refines L M) (hp : (M path).isSome) (hkeys : (h.tree hM hp).keys = []) :
    M.removeBelow path = M := by
  funext ks
  refine ite_eq_right_iff.mpr fun ⟨hpre, hne⟩ => ?_
  obtain ⟨t, rfl⟩ := hpre
  cases t with
  | nil => simp at hne
  | cons key t =>
    by_contra hsome
    have hks : (L (bitsOf (path ++ key :: t))).isSome := by
      rw [← hM.isSome]
      exact Option.isSome_iff_ne_none.mpr (Ne.symm hsome)
    obtain ⟨m, hm⟩ := Option.isSome_iff_exists.mp hks
    obtain ⟨n, hn⟩ := h.of_isPrefix hm (u := bitsOf (path ++ [key]))
      (bitsOf_isPrefix.mpr ⟨t, by simp⟩)
    have hkey : key.bits ∈ (h.tree hM hp).keys :=
      (h.mem_keys_tree hM hp).mpr ⟨key, rfl, by rw [hM.isSome, hn]; rfl⟩
    rw [hkeys] at hkey
    cases hkey

/-! ### The loop -/

/-- The file holds the store, with the path at the index. -/
def Database.StoresAt (db : Database) (M : Store) (path : List Key) (index : ℕ) : Prop :=
  ∃ Γ L, Rep db Γ L ∧ Refines L M ∧ (L (bitsOf path)).map Node.place = some index

namespace Database.StoresAt

variable {db : Database} {M : Store} {path : List Key} {index : ℕ}

theorem stores (h : db.StoresAt M path index) : db.Stores M := by
  obtain ⟨Γ, L, hrep, hM, -⟩ := h
  exact ⟨Γ, L, hrep, hM⟩

theorem contains (h : db.StoresAt M path index) (count : ℤ) (key : Key) :
    Path.contains db ⟨index, count⟩ key = (M (path ++ [key])).isSome := by
  obtain ⟨Γ, L, hrep, hM, hindex⟩ := h
  obtain ⟨n, hn, rfl⟩ := Option.map_eq_some_iff.mp hindex
  rw [hrep.contains hn, hM.isSome, bitsOf_concat]

/-- Where no key is under the path it is a dead end. -/
theorem isDeadEnd (h : db.StoresAt (M.removeBelow path) path index) (count : ℤ) :
    Path.isDeadEnd db ⟨index, count⟩ = true := by
  obtain ⟨Γ, L, hrep, hM, hindex⟩ := h
  obtain ⟨n, hn, rfl⟩ := Option.map_eq_some_iff.mp hindex
  have hnone : ∀ b, L (bitsOf path ++ [b]) = none := by
    intro b
    by_contra hsome
    obtain ⟨m, hm⟩ := Option.ne_none_iff_exists'.mp hsome
    obtain ⟨ks, hks, hp⟩ := hM.present hm
    rw [Store.removeBelow, if_pos] at hks
    · cases hks
    · refine ⟨bitsOf_isPrefix.mp ((List.prefix_append _ _).trans hp), ?_⟩
      rintro rfl
      exact not_concat_isPrefix hp
  show (db.getBranch n.place).isDeadEnd = true
  rw [hrep.getBranch hn, Branch.isDeadEnd]
  simp [Layout.branch, Layout.place_of_none (hnone _)]

end Database.StoresAt

/-- The loop goes on at `w`: the keys `ks` are left under the path, and all of
them are ahead. -/
structure Walk.Ready (path : List Key) (c : Walk Path) (index : ℕ) (M : Store) (w : List Bool)
    (ks : List Key) : Prop where
  trie : ∃ Γ L, Rep c.db Γ L ∧ Refines L M ∧ (L (bitsOf path)).map Node.place = some index ∧
    Footing Γ L (bitsOf path) c.path.index w
  stack : StackAt w c.stack
  start : w = [] ∨ IsCode w
  mem : ∀ key, key ∈ ks ↔ (M (path ++ [key])).isSome
  sorted : (ks.map Key.bits).Pairwise (· < ·)
  ahead : ∀ key ∈ ks, Ahead w key.bits

namespace Walk.Ready

variable {path : List Key} {c : Walk Path} {index : ℕ} {M : Store} {w : List Bool} {key : Key}
    {ks : List Key}

/-- `next` comes to the first key that is left. -/
theorem next (h : Ready path c index M w ks) : ∃ r, Returns (Walk.next · c) r ∧ match ks with
    | [] => r.1 = false ∧ r.2.db.StoresAt (M.removeBelow path) path index ∧ r.2.path.index = index ∧
      r.2.stack.size = 0
    | key :: _ =>
      r.1 = true ∧ ∃ Γ L, Rep c.db Γ L ∧ Refines L M ∧
        (L (bitsOf path)).map Node.place = some index ∧
        r.2.At c.db (fun p w => Footing Γ L (bitsOf path) p.index w) key.bits := by
  obtain ⟨Γ, L, hrep, hM, hindex, hfoot⟩ := h.trie
  obtain ⟨n, hn, rfl⟩ := Option.map_eq_some_iff.mp hindex
  have hp : (M path).isSome := by
    rw [hM.isSome, hn]
    rfl
  have hT := Footing.tracks hrep hM hp
  have hkeys : (hrep.tree hM hp).keys = ks.map Key.bits := by
    apply (hrep.tree hM hp).sorted_keys.eq_of_mem_iff h.sorted
    intro k
    rw [hrep.mem_keys_tree hM hp, List.mem_map]
    exact exists_congr fun key => by rw [← h.mem, and_comm]
  obtain ⟨r, hr, hl⟩ := Walk.next_lands_ahead hT ⟨rfl, hfoot, h.stack⟩ h.start
    (by simpa [hkeys] using h.ahead)
  refine ⟨r, hr, ?_⟩
  rw [hkeys] at hl
  cases ks with
  | nil =>
    obtain ⟨hfalse, hat⟩ := hl
    refine ⟨hfalse, ⟨Γ, L, hat.db.symm ▸ hrep, ?_, hindex⟩, ?_, hat.stack.size⟩
    · rwa [hrep.removeBelow_of_keys hM hp hkeys]
    · exact hat.path.live_of_some (by rwa [List.append_nil])
  | cons key ks =>
    obtain ⟨htrue, -, hat, -⟩ := hl
    exact ⟨htrue, Γ, L, hrep, hM, hindex, hat⟩

/-- After the key is cleared the loop is ready for the others. -/
theorem clearKey (h : Ready path c index M w (key :: ks)) (count : ℤ) {c' : Walk Path} {Γ : Heap}
    {L : Layout}
    (hrep : Rep c.db Γ L) (hM : Refines L M)
    (hindex : (L (bitsOf path)).map Node.place = some index)
    (hat : c'.At c.db (fun p w => Footing Γ L (bitsOf path) p.index w) key.bits) :
    ∃ db, Path.clearKey c'.db ⟨index, count⟩ key = some db ∧
      Ready path { c' with db := db } index (M.remove (path ++ [key])) key.bits ks := by
  obtain ⟨n, hn, rfl⟩ := Option.map_eq_some_iff.mp hindex
  have hpresent : (L (bitsOf path ++ key.bits)).isSome := by
    rw [← bitsOf_concat, ← hM.isSome]
    exact (h.mem key).mp List.mem_cons_self
  obtain ⟨db, Γ', x, b, r, hclear, hcut, hrep', -, he⟩ := hrep.clearKey hn count key hpresent
  have hn' : L.prune (bitsOf path ++ x ++ [b]) (bitsOf path) = some n := by
    refine Layout.prune_eq_some.mpr ⟨fun hp => ?_, hn⟩
    simpa using hp.length_le
  have hnot : key ∉ ks := fun hk => List.lt_irrefl key.bits
    ((List.pairwise_cons.mp h.sorted).1 _ (List.mem_map_of_mem hk))
  refine ⟨db, by rw [hat.db, hclear], ?_⟩
  exact {
    trie := ⟨Γ', _, hrep', hM.remove hrep.toWF hn hcut, by rw [hn']; rfl, by
      apply hat.path.evolves he hrep
      · rw [hn']
        rfl
      · exact fun w m hm => ⟨m, (Layout.prune_eq_some.mp hm).2, rfl⟩⟩
    stack := hat.stack
    start := Or.inr key.isCode
    mem := fun other => by
      by_cases hother : other = key
      · rw [hother, Store.remove_self]
        simpa using hnot
      · rw [Store.remove_concat_of_ne hother, ← h.mem, List.mem_cons, or_iff_right hother]
    sorted := (List.pairwise_cons.mp h.sorted).2
    ahead := fun other hother => by
      apply Walk.ahead_of_sorted key.isCode _ h.sorted _ (List.mem_map_of_mem hother)
      simp only [List.mem_map]
      rintro _ ⟨k, -, rfl⟩
      exact k.isCode }

end Walk.Ready

section

variable {α : Type} [Encoded α] [LawfulEncoded α] {path : List Key} {index : ℕ}

/-- The loop comes to each of the keys that are left, and leaves none. -/
theorem Walk.clearEach_returns (count : ℤ) :
    ∀ (items : List α) {c : Walk Path} {M : Store} {w : List Bool},
    Ready path c index M w (items.map .of) →
    ∃ c', Returns (Walk.clearEach ⟨index, count⟩ · c) (items, c') ∧
      c'.db.StoresAt (M.removeBelow path) path index ∧
      c'.path.index = index ∧ c'.stack.size = 0
  | [], c, M, w, h => by
    obtain ⟨⟨found, c'⟩, hr, hfound, hstores, hindex, hsize⟩ := h.next
    obtain rfl : found = false := hfound
    have hitem : Returns (fun fuel => Walk.nextItem (α := α) fuel c) (none, c') := hr.bind_some rfl
    refine ⟨c', ?_, hstores, hindex, hsize⟩
    exact hitem.bind (g := fun p fuel => Walk.clearItem ⟨index, count⟩
      (Walk.clearEach ⟨index, count⟩ fuel) p)
      ⟨0, fun _ _ => rfl⟩ fun _ => rfl
  | item :: items, c, M, w, h => by
    obtain ⟨⟨found, c'⟩, hr, hfound, Γ, L, hrep, hM, hindex, hat⟩ := h.next
    obtain rfl : found = true := hfound
    obtain ⟨c₁, hread, hat₁⟩ := readItem_of_at (a := item) hat
    obtain ⟨db, hclear, hready⟩ := h.clearKey count hrep hM hindex hat₁
    have hitem : Returns (fun fuel => Walk.nextItem (α := α) fuel c) (some item, c₁) :=
      hr.bind_some hread
    obtain ⟨c₂, hrest, hstores, hend⟩ := clearEach_returns count items hready
    rw [Store.remove_removeBelow] at hstores
    refine ⟨c₂, ?_, hstores, hend⟩
    apply hitem.bind (g := fun p fuel => Walk.clearItem ⟨index, count⟩
      (Walk.clearEach ⟨index, count⟩ fuel) p)
    · have hbody : ∀ fuel, Walk.clearItem ⟨index, count⟩ (Walk.clearEach ⟨index, count⟩ fuel)
        (some item, c₁) =
          (Walk.clearEach ⟨index, count⟩ fuel { c₁ with db := db }).map fun r =>
            (item :: r.1, r.2) := fun fuel => by
        rw [Walk.clearItem, hclear]
        rfl
      rw [funext hbody]
      exact hrest.map fun r => (item :: r.1, r.2)
    · exact fun _ => rfl

/-- **Clearing while iterating is safe.** After any run of operations, the loop
over the keys under a path that clears each of them, through a second path at
the same node, comes to all of them once and in their order, and leaves none;
the other paths of the store it leaves alone. -/
theorem clearEach_all (ops : List Op) (path : List Key)
    (hα : ∀ key, ((applyAll .empty ops).2 (path ++ [key])).isSome → ∃ a : α, key = .of a) :
    ∃ (answers : List Answer) (db : Database) (items : List α),
      runAll .create ops = some (answers, db) ∧
      (∀ a, a ∈ items ↔ ((applyAll .empty ops).2 (path ++ [.of a])).isSome) ∧
      (items.map encode).Pairwise (· < ·) ∧
      ∀ count, ∃ c : Walk Path,
        Returns (Walk.clearAll · (Path.getAll db .root path).2 (Path.getAll db .root path).1
          ⟨(Path.getAll db .root path).1.index, count⟩) (items, c) ∧
        (∀ key, Path.contains c.db (Path.getAll db .root path).1 key = false) ∧
        Path.isDeadEnd c.db (Path.getAll db .root path).1 = true ∧
        c.db.Stores (((applyAll .empty ops).2.visit path).removeBelow path) := by
  obtain ⟨db, he, Γ₀, L₀, h₀, hM₀⟩ := stores_create.runAll ops
  obtain ⟨Γ, L, n, hn, h, hw, hM, hp⟩ := h₀.walk hM₀ path
  obtain ⟨items, hi, hmem⟩ := h.exists_items hM hp fun key hkey =>
    hα key (by rwa [Store.visit_concat] at hkey)
  have hready : ∀ count, Walk.Ready path ⟨(Path.getAll db .root path).2, ⟨n.place, count⟩,
    .empty⟩ n.place
      ((applyAll .empty ops).2.visit path) [] (items.map .of) := fun count => {
    trie := ⟨Γ, L, h, hM, by rw [hw]; rfl, .live (by rwa [List.append_nil])⟩
    stack := stackAt_empty
    start := Or.inl rfl
    mem := fun key => by
      rw [List.mem_map]
      constructor
      · rintro ⟨a, ha, rfl⟩
        exact (hmem a).mp ha
      · intro hkey
        obtain ⟨a, rfl⟩ := hα key (by rwa [Store.visit_concat] at hkey)
        exact ⟨a, (hmem a).mpr hkey, rfl⟩
    sorted := by
      rw [List.map_map]
      exact hi ▸ (h.tree hM hp).sorted_keys
    ahead := fun _ _ => Or.inl rfl }
  refine ⟨_, db, items, he, fun a => by rw [hmem, Store.visit_concat], ?_, fun count => ?_⟩
  · rw [hi]
    exact (h.tree hM hp).sorted_keys
  · obtain ⟨c, hr, hstores, -, -⟩ := Walk.clearEach_returns count items (hready 0)
    rw [hn] at hr hstores
    refine ⟨c, hr, fun key => ?_, hstores.isDeadEnd _, hstores.stores⟩
    rw [hstores.contains, Store.removeBelow, if_pos ⟨List.prefix_append _ _, by simp⟩]
    rfl

end

/-- Two keys under the root. -/
theorem clearEach_all_two :
    ∃ (answers : List Answer) (db : Database) (items : List ℕ),
      runAll .create [⟨[.of 2], .setData [7]⟩, ⟨[.of 5], .deleteData⟩] = some (answers, db) ∧
      (∀ a, a ∈ items ↔
        ((applyAll .empty [⟨[.of 2], .setData [7]⟩, ⟨[.of 5], .deleteData⟩]).2
          ([] ++ [.of a])).isSome) ∧
      (items.map encode).Pairwise (· < ·) ∧
      ∀ count, ∃ c : Walk Path,
        Returns (Walk.clearAll · (Path.getAll db .root []).2 (Path.getAll db .root []).1
          ⟨(Path.getAll db .root []).1.index, count⟩) (items, c) ∧
        (∀ key, Path.contains c.db (Path.getAll db .root []).1 key = false) ∧
        Path.isDeadEnd c.db (Path.getAll db .root []).1 = true ∧
        c.db.Stores
          (((applyAll .empty [⟨[.of 2], .setData [7]⟩, ⟨[.of 5], .deleteData⟩]).2.visit
            []).removeBelow []) :=
  clearEach_all [⟨[.of 2], .setData [7]⟩, ⟨[.of 5], .deleteData⟩] [] fun key hkey => by
    by_cases h2 : key = .of (2 : ℕ)
    · exact ⟨2, h2⟩
    · by_cases h5 : key = .of (5 : ℕ)
      · exact ⟨5, h5⟩
      · simp [applyAll, Op.apply, Action.apply, Store.put, Store.visit, Store.empty, h2, h5] at hkey

end BeeFish
