/-
# Going back over a query

The ways that a cursor can go (`CursorExpr.goes`) are more than the keys that
it enumerates: they lead past the ends of keys to those nested under them, and
into dead ends. Going forth, neither matters. Going back, the cursor is lured
past the end of a key wherever its last bit goes left and there is a way right,
as for the number 0 beside any other number, or for a string beside a longer
one. If nothing is nested under the key, it is left out; if more than one stop
is, it is given more than once. So the keys come in reverse exactly if each of
them has one stop (`previous_mirrors_next`).

Key definitions: `CursorExpr.goes`.
-/
import BeeFish.CursorExpr
import BeeFish.Previous

namespace BeeFish

open BitCode BitTree

namespace CursorExpr

/-- The ways along the keys below a path. -/
def waysUnder (M : Store) (ks : List Key) (w : List Bool) : Prop :=
  ∃ js, (M (ks ++ js)).isSome ∧ w <+: bitsOf js

/-- The ways that the cursor can go. -/
def goes (toLower : BString → BString) (M : Store) : CursorExpr → List Bool → Prop
  | path ks, w => waysUnder M ks w
  | andPath a b, w => a.goes toLower M w ∧ b.goes toLower M w
  | orPath a b, w => a.goes toLower M w ∨ b.goes toLower M w
  | notPath a bounds, w => waysUnder M bounds w ∧ ∀ key ∈ a.meaning toLower M, ¬ key.bits <+: w
  | wordPath words word, w => w = [] ∨ waysUnder M (words ++ [.of (toLower word)]) w

end CursorExpr

/-! ### The tree of a cursor -/

/-- The tree has the ways and the keys of the expression. -/
structure CursorExpr.Grows (toLower : BString → BString) (M : Store) (e : CursorExpr)
    (T : BitTree) : Prop where
  goes : ∀ w, T.mem w = true ↔ e.goes toLower M w
  grounded : ∀ w, T.mem w = true → Grounded w
  keys : ∀ key : Key, key.bits ∈ T.keys ↔ key ∈ e.meaning toLower M

section

variable {db : Database} {Γ : Heap} {L : Layout} {M : Store} {toLower : BString → BString}

theorem Rep.mem_tree_iff (h : Rep db Γ L) (hM : Refines L M) {ks : List Key} (hp : (M ks).isSome)
    (w : List Bool) :
    (h.tree hM hp).mem w = true ↔ CursorExpr.waysUnder M ks w := by
  rw [h.mem_tree hM hp]
  constructor
  · intro hw
    obtain ⟨n, hn⟩ := Option.isSome_iff_exists.mp hw
    obtain ⟨js, hjs, hpre⟩ := hM.present hn
    obtain ⟨t, rfl⟩ := bitsOf_isPrefix.mp ((List.prefix_append (bitsOf ks) w).trans hpre)
    rw [bitsOf_append, List.prefix_append_right_inj] at hpre
    exact ⟨t, hjs, hpre⟩
  · rintro ⟨js, hjs, hpre⟩
    rw [hM.isSome, bitsOf_append] at hjs
    obtain ⟨m, hm⟩ := Option.isSome_iff_exists.mp hjs
    obtain ⟨n, hn⟩ := h.of_isPrefix hm ((List.prefix_append_right_inj (bitsOf ks)).mpr hpre)
    rw [hn]
    rfl

namespace CursorExpr.Grows

theorem path (h : Rep db Γ L) (hM : Refines L M) {ks : List Key} (hp : (M ks).isSome) :
    (CursorExpr.path ks).Grows toLower M (h.tree hM hp) where
  goes := h.mem_tree_iff hM hp
  grounded _ := h.grounded_tree hM hp
  keys := Denotes.mem_under h hM hp

variable {a b : CursorExpr} {A B : BitTree}

theorem andPath (ha : a.Grows toLower M A) (hb : b.Grows toLower M B) :
    (CursorExpr.andPath a b).Grows toLower M (A.inter B) where
  goes w := by
    rw [CursorExpr.goes, ← ha.goes, ← hb.goes]
    exact Bool.and_eq_true _ _ ▸ Iff.rfl
  grounded w hw := ha.grounded w ((Bool.and_eq_true _ _).mp hw).1
  keys key := by
    rw [mem_keys_inter, ha.keys, hb.keys]
    rfl

theorem orPath (ha : a.Grows toLower M A) (hb : b.Grows toLower M B) :
    (CursorExpr.orPath a b).Grows toLower M (A.union B) where
  goes w := by
    rw [CursorExpr.goes, ← ha.goes, ← hb.goes]
    exact Bool.or_eq_true _ _ ▸ Iff.rfl
  grounded w hw := ((Bool.or_eq_true _ _).mp hw).elim (ha.grounded w) (hb.grounded w)
  keys key := by
    rw [mem_keys_union, ha.keys, hb.keys]
    rfl

theorem notPath (hb : b.Grows toLower M B) (h : Rep db Γ L) (hM : Refines L M) {ks : List Key}
    (hp : (M ks).isSome) :
    (CursorExpr.notPath b ks).Grows toLower M ((h.tree hM hp).diff B) where
  goes w := by
    rw [CursorExpr.goes, ← h.mem_tree_iff hM hp, mem_diff_iff]
    refine and_congr_right fun _ => ⟨fun hn key hkey hpre => ?_, fun hn u hu hc hm => ?_⟩
    · exact hn key.bits hpre key.isCode (B.mem_keys.mp ((hb.keys key).mpr hkey)).2
    · exact hn ⟨u, hc⟩ ((hb.keys ⟨u, hc⟩).mp (B.mem_keys.mpr ⟨hc, hm⟩)) hu
  grounded w hw := h.grounded_tree hM hp (mem_diff hw).1
  keys key := by
    rw [mem_keys_diff, hb.keys, Denotes.mem_under h hM hp]
    rfl

theorem wordPath (h : Rep db Γ L) (hM : Refines L M) {words : List Key} {word : BString}
    (hp : (M (words ++ [.of (toLower word)])).isSome) :
    (CursorExpr.wordPath words word).Grows toLower M (h.tree hM hp) where
  goes w := by
    rw [h.mem_tree_iff hM hp, CursorExpr.goes]
    refine ⟨Or.inr, ?_⟩
    rintro (rfl | hw)
    · exact ⟨[], by rwa [List.append_nil], List.nil_prefix⟩
    · exact hw
  grounded _ := h.grounded_tree hM hp
  keys := Denotes.mem_under h hM hp

theorem wordPath_none (h : Rep db Γ L) (hM : Refines L M) {words : List Key} {word : BString}
    (hp : M (words ++ [.of (toLower word)]) = none) :
    (CursorExpr.wordPath words word).Grows toLower M .leaf where
  goes w := by
    have hnone : ¬ CursorExpr.waysUnder M (words ++ [.of (toLower word)]) w := by
      rintro ⟨js, hjs, -⟩
      rw [hM.isSome, bitsOf_append] at hjs
      obtain ⟨m, hm⟩ := Option.isSome_iff_exists.mp hjs
      obtain ⟨n, hn⟩ := h.of_isPrefix hm (List.prefix_append _ _)
      rw [hM.of_some hn] at hp
      cases hp
    rw [CursorExpr.goes, or_iff_left hnone]
    exact beq_iff_eq
  grounded w hw := by
    obtain rfl : w = [] := beq_iff_eq.mp hw
    exact grounded_nil
  keys key := by
    rw [keys_leaf, CursorExpr.meaning, under_eq_empty h hM hp]
    simp

end CursorExpr.Grows

/-- The cursor that is built is on the tree of its ways, and building it
changes nothing. -/
theorem CursorExpr.grows (toLower : BString → BString) (h : Rep db Γ L) (hM : Refines L M) :
    ∀ e : CursorExpr,
    (∀ ks ∈ e.paths, (M ks).isSome) →
    (e.build toLower db).2 = db ∧ ∃ T, OnTree Grounded db (e.build toLower db).1 T ∧
      e.Grows toLower M T
  | path ks, hp => by
    have hks := hp ks (by simp [paths])
    obtain ⟨hR, hdb⟩ := h.getAll_root hM hks
    exact ⟨hdb, _, .path (h.tracksOn hM hks _) (fun _ => standsAt_copy) hR, .path h hM hks⟩
  | andPath a b, hp => by
    obtain ⟨hdb, A, hA, ha⟩ := grows toLower h hM a fun ks hk => hp ks (List.mem_append_left _ hk)
    obtain ⟨hdb', B, hB, hb⟩ := grows toLower h hM b fun ks hk => hp ks (List.mem_append_right _ hk)
    simp only [build, hdb, hdb']
    exact ⟨trivial, _, hA.copy.andPath hB.copy, ha.andPath hb⟩
  | orPath a b, hp => by
    obtain ⟨hdb, A, hA, ha⟩ := grows toLower h hM a fun ks hk => hp ks (List.mem_append_left _ hk)
    obtain ⟨hdb', B, hB, hb⟩ := grows toLower h hM b fun ks hk => hp ks (List.mem_append_right _ hk)
    simp only [build, hdb, hdb']
    exact ⟨trivial, _, hA.copy.orPath hB.copy, ha.orPath hb⟩
  | notPath a bounds, hp => by
    have hks := hp bounds (by simp [paths])
    obtain ⟨hdb, A, hA, ha⟩ := grows toLower h hM a fun ks hk => hp ks (List.mem_cons_of_mem _ hk)
    obtain ⟨hR, hdb'⟩ := h.getAll_root hM hks
    simp only [build, hdb, hdb']
    exact ⟨trivial, _, hA.copy.notPath (h.tracksOn hM hks _) (fun _ => standsAt_copy)
      (standsAt_copy hR)
      fun _ => h.grounded_tree hM hks, ha.notPath h hM hks⟩
  | wordPath words word, hp => by
    have hks := hp words (by simp [paths])
    obtain ⟨hR, hdb⟩ := h.getAll_root hM hks
    simp only [build, hdb]
    rcases Denotes.newWordPath_eq toLower word h hM (standsAt_copy hR) with ⟨q, hq, hw,
      hq'⟩ | ⟨hq, hw⟩
    · rw [hq]
      exact ⟨trivial, _, .wordPath _ _ (h.tracksOn hM hw _) (fun _ => standsAt_copy) hq',
        .wordPath h hM hw⟩
    · rw [hq]
      exact ⟨trivial, _, .wordPath_none _ _, .wordPath_none h hM hw⟩

/-! ### Forth and back -/

variable {α : Type} [Encoded α] [LawfulEncoded α]

/-- The keys that are given going forth and those that are given going back are
the keys of one tree and its stops. -/
theorem CursorExpr.goes_forth_and_back (toLower : BString → BString) (h : Rep db Γ L)
    (hM : Refines L M) (e : CursorExpr)
    (hp : ∀ ks ∈ e.paths, (M ks).isSome) (hα : ∀ key ∈ e.meaning toLower M, ∃ a : α, key = .of a) :
    ∃ (T : BitTree) (items back : List α) (c c' : Walk Cursor), e.Grows toLower M T ∧
      items.map encode = T.keys ∧
      List.Forall₂ (ItemAt T) back T.stops ∧
      Returns (Walk.nextItems · ⟨(e.build toLower db).2, (e.build toLower db).1, .empty⟩)
        (items, c) ∧
      Returns (Walk.previousItems · ⟨(e.build toLower db).2, (e.build toLower db).1, .empty⟩)
        (back, c') ∧
      Returns (fun fuel => Walk.max fuel (e.build toLower db).2 (e.build toLower db).1)
        back.head? := by
  obtain ⟨hdb, T, ⟨R, hT, hR, hcopy⟩, hG⟩ := e.grows toLower h hM hp
  have hitem : ∀ k ∈ T.keys, ∃ a : α, encode a = k := fun k hk => by
    obtain ⟨a, ha⟩ := hα ⟨k, (T.mem_keys.mp hk).1⟩ ((hG.keys _).mp hk)
    exact ⟨a, (congrArg Key.bits ha).symm⟩
  obtain ⟨items, hi⟩ : ∃ items : List α, items.map encode = T.keys := exists_items hitem
  obtain ⟨back, hback⟩ : ∃ back : List α, List.Forall₂ (ItemAt T) back T.stops := by
    refine exists_items_of_stops fun s hs => ?_
    obtain ⟨k, hk, hks⟩ := exists_key_of_stop hG.grounded hs
    obtain ⟨a, rfl⟩ := hitem k hk
    exact ⟨a, hks⟩
  have hstart : Walk.At db R ⟨db, (e.build toLower db).1, .empty⟩ [] := at_start db hR
  obtain ⟨c, hnext, -⟩ := nextItems_all (hT.mono fun _ => Grounded.of_stays).tracks hR hi
  obtain ⟨c', hprev, -⟩ := previousItems_lands hT hG.grounded hback
    (previous_lands_start hT hG.grounded hstart)
  refine ⟨T, items, back, c, c', hG, hi, hback, ?_, ?_, ?_⟩ <;> rw [hdb]
  · exact hnext
  · exact hprev
  · exact max_first hT hG.grounded (hcopy _ hR) hback

/-- The keys come in reverse if and only if each has one stop. -/
theorem CursorExpr.Grows.eq_reverse_iff {e : CursorExpr} {T : BitTree} (hG : e.Grows toLower M T)
    {items back : List α}
    (hi : items.map encode = T.keys) (hback : List.Forall₂ (ItemAt T) back T.stops) :
    back = items.reverse ↔ ∀ key ∈ e.meaning toLower M, ∃! s, Stops (e.goes toLower M) s ∧
      key.bits <+: s := by
  have hgoes : (T.mem · = true) = e.goes toLower M := funext fun w => propext (hG.goes w)
  have hfirst : List.Forall₂ (fun k s => IsCode k ∧ k <+: s) (back.map encode) T.stops := by
    apply List.forall₂_map_left_iff.mpr
    exact hback.imp fun a s ha => ⟨LawfulEncoded.isCode a, ha.isPrefix⟩
  calc back = items.reverse
    _ ↔ back.map encode = items.reverse.map encode :=
      (List.map_injective_iff.mpr fun _ _ h => encode_injective h).eq_iff.symm
    _ ↔ back.map encode = T.keys.reverse := by rw [List.map_reverse, hi]
    _ ↔ ∀ k ∈ T.keys, ∃! s, Stops (T.mem · = true) s ∧ k <+: s :=
      firsts_eq_reverse hG.grounded hfirst
    _ ↔ ∀ key ∈ e.meaning toLower M, ∃! s, Stops (e.goes toLower M) s ∧ key.bits <+: s := by
      rw [hgoes]
      constructor
      · exact fun h key hkey => h key.bits ((hG.keys key).mpr hkey)
      · exact fun h k hk => h ⟨k, (T.mem_keys.mp hk).1⟩ ((hG.keys ⟨k, (T.mem_keys.mp hk).1⟩).mp hk)

end

/-- **Going back mirrors going forth only where each key has one stop.** After
any run of operations, on a cursor built from paths that are there, calls of
`next(stack, item)` give the keys of its meaning in order, calls of
`previous(stack, item)` end, and `max` is the first that they give; they give
the keys in reverse if and only if there is one stop below each key. -/
theorem previous_mirrors_next {α : Type} [Encoded α] [LawfulEncoded α] (toLower : BString → BString)
    (ops : List Op)
    (e : CursorExpr) (hpaths : ∀ ks ∈ e.paths, ((applyAll .empty ops).2 ks).isSome)
    (hα : ∀ key ∈ e.meaning toLower (applyAll .empty ops).2, ∃ a : α, key = .of a) :
    ∃ (answers : List Answer) (db : Database) (items back : List α) (c c' : Walk Cursor),
      runAll .create ops = some (answers, db) ∧
      Returns (Walk.nextItems · ⟨(e.build toLower db).2, (e.build toLower db).1, .empty⟩)
        (items, c) ∧
      (items.map encode).Pairwise (· < ·) ∧
        (∀ a, a ∈ items ↔ .of a ∈ e.meaning toLower (applyAll .empty ops).2) ∧
      Returns (Walk.previousItems · ⟨(e.build toLower db).2, (e.build toLower db).1, .empty⟩)
        (back, c') ∧
      Returns (fun fuel => Walk.max fuel (e.build toLower db).2 (e.build toLower db).1) back.head? ∧
      (back = items.reverse ↔ ∀ key ∈ e.meaning toLower (applyAll .empty ops).2,
        ∃! s, Stops (e.goes toLower (applyAll .empty ops).2) s ∧ key.bits <+: s) := by
  obtain ⟨db, he, Γ, L, h, hM⟩ := stores_create.runAll ops
  obtain ⟨T, items, back, c, c', hG, hi, hback, hnext, hprev, hmax⟩ :=
    e.goes_forth_and_back toLower h hM hpaths hα
  refine ⟨_, db, items, back, c, c', he, hnext, hi ▸ T.sorted_keys, fun a => ?_, hprev, hmax,
    hG.eq_reverse_iff hi hback⟩
  calc a ∈ items
    _ ↔ encode a ∈ items.map encode :=
      (List.mem_map_of_injective fun _ _ h => encode_injective h).symm
    _ ↔ .of a ∈ e.meaning toLower (applyAll .empty ops).2 := by
      rw [hi]
      exact hG.keys (.of a)

theorem previous_mirrors_next_not :
    ∃ (answers : List Answer) (db : Database) (items back : List ℕ) (c c' : Walk Cursor),
      runAll .create numbersAndWord = some (answers, db) ∧
      Returns (Walk.nextItems · ⟨(notWord.build id db).2, (notWord.build id db).1, .empty⟩)
        (items, c) ∧
      (items.map encode).Pairwise (· < ·) ∧
      (∀ a, a ∈ items ↔ .of a ∈ notWord.meaning id (applyAll .empty numbersAndWord).2) ∧
      Returns (Walk.previousItems · ⟨(notWord.build id db).2, (notWord.build id db).1, .empty⟩)
        (back, c') ∧
      Returns (fun fuel => Walk.max fuel (notWord.build id db).2 (notWord.build id db).1)
        back.head? ∧
      (back = items.reverse ↔ ∀ key ∈ notWord.meaning id (applyAll .empty numbersAndWord).2,
        ∃! s, Stops (notWord.goes id (applyAll .empty numbersAndWord).2) s ∧ key.bits <+: s) :=
  previous_mirrors_next id numbersAndWord notWord paths_notWord number_of_notWord

/-- The number 0 is passed over beside the number 1. -/
theorem previous_passes_zero :
    ∃ (answers : List Answer) (db : Database) (items back : List ℕ) (c c' : Walk Cursor),
    runAll .create [⟨[.of 0], .hasData⟩, ⟨[.of 1], .hasData⟩] = some (answers, db) ∧
    Returns (Walk.nextItems · ⟨((CursorExpr.path []).build id db).2,
      ((CursorExpr.path []).build id db).1, .empty⟩) (items, c) ∧
    Returns (Walk.previousItems · ⟨((CursorExpr.path []).build id db).2,
      ((CursorExpr.path []).build id db).1, .empty⟩) (back, c') ∧
    back ≠ items.reverse := by
  have hkeys : ∀ js, ((applyAll .empty [⟨[.of 0], .hasData⟩, ⟨[.of 1], .hasData⟩]).2 js).isSome ↔
      js = [] ∨ js = [.of (0 : ℕ)] ∨ js = [.of (1 : ℕ)] := by
    intro js
    have hone : ∀ key : Key, js <+: [key] ↔ js = [] ∨ js = [key] :=
      fun key => by simp [List.prefix_cons_iff]
    simp only [applyAll, Op.apply, Action.apply, Store.visit, Store.empty, hone]
    split_ifs <;> simp_all
  obtain ⟨db, he, Γ, L, h, hM⟩ := stores_create.runAll [⟨[.of 0], .hasData⟩, ⟨[.of 1], .hasData⟩]
  obtain ⟨T, items, back, c, c', hG, hi, hback, hnext, hprev, -⟩ :=
    (CursorExpr.path []).goes_forth_and_back (α := ℕ) id h hM
      (by
        intro ks hks
        obtain rfl := List.mem_singleton.mp hks
        exact (hkeys []).mpr (Or.inl rfl))
      (by
        intro key hkey
        rcases (hkeys _).mp hkey with h | h | h <;> simp at h
        · exact ⟨0, h⟩
        · exact ⟨1, h⟩)
  refine ⟨_, db, items, back, c, c', he, hnext, hprev, fun heq => ?_⟩
  obtain ⟨s, ⟨hs, hpre⟩, -⟩ := (hG.eq_reverse_iff hi hback).mp heq (.of 0)
    ((hkeys [.of 0]).mpr (by simp))
  have hbits : bitsOf [.of (0 : ℕ)] = [true, false] ∧ bitsOf [.of (1 : ℕ)] =
    [true, true, false, false] := by decide +kernel
  -- the cursor goes no further below 0, and 1 makes its end a fork
  have hend : s = [true] ++ [false] := by
    obtain ⟨js, hjs, hw⟩ := hs.there
    have hpre' : [true, false] <+: s := hbits.1 ▸ bitsOf_singleton (.of (0 : ℕ)) ▸ hpre
    refine (hpre'.eq_of_length_le ?_).symm
    rcases (hkeys js).mp hjs with rfl | rfl | rfl
    · simpa using (hpre'.trans hw).length_le
    · simpa [hbits.1] using hw.length_le
    · rw [hbits.2] at hw
      exact absurd (hpre'.trans hw) (by decide)
  subst hend
  exact hs.single
    (forks_concat.mpr ⟨[.of (1 : ℕ)], (hkeys _).mpr (by simp), by rw [hbits.2]; decide⟩)

end BeeFish
