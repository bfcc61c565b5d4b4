/-
# Copies of cursors

A copy of a stack has its bits and not its count (`Stack(const Stack&)`,
Miscellaneous/Stack.hpp), and a not looks at the count of its stack. So the
copy of a cursor goes on as the cursor does where each not in it stands at the
start or at the end of a key, and the count is zero. The operand of an or or a
not that falls behind may stand inside a key.

`Cursor.Rests` says of a cursor at its start that each not in it will stand
so, once the cursor has gone along some bits; then its copy will be at the same
place (`CursorExpr.rested`).

Key definitions: `PathBase.goes`, `Cursor.Rests`, `Rested`.
-/
import BeeFish.CursorExpr

namespace BeeFish

open BitCode

/-- Whether the cursor can go along the bits. -/
def PathBase.goes {σ : Type} [PathBase σ] (db : Database) : List Bool → σ → Bool
  | [], _ => true
  | b :: w, x => PathBase.canGo db x b && goes db w (PathBase.go db x b).1

namespace Cursor

/-- An operand on the way `u ++ v` comes to `u`, and no further. -/
def StopsAt (db : Database) (x : Cursor) (u v : List Bool) : Prop :=
  PathBase.goes db u x = true ∧ ∀ c v', v = c :: v' → PathBase.goes db (u ++ [c]) x = false

/-- Each not in the cursor stands where the count of its stack is zero, once
the cursor has gone along the bits. -/
def Rests (db : Database) : Cursor → List Bool → Prop
  | path _, _ => True
  | andPath a b, w => a.Rests db w ∧ b.Rests db w
  | orPath a b _ _, w =>
    (∀ u v, w = u ++ v → a.StopsAt db u v → a.Rests db u) ∧
      (∀ u v, w = u ++ v → b.StopsAt db u v → b.Rests db u)
  | notPath a _ _ _, w => height 0 w = 0 ∧ ∀ u v, w = u ++ v → a.StopsAt db u v → a.Rests db u
  | wordPath _ _ _, _ => True

theorem rests_nil (db : Database) : ∀ c : Cursor, c.Rests db []
  | path _ => trivial
  | wordPath _ _ _ => trivial
  | andPath a b => ⟨rests_nil db a, rests_nil db b⟩
  | orPath a b _ _ => by
    constructor
    · intro u v hw _
      rw [(List.append_eq_nil_iff.mp hw.symm).1]
      exact rests_nil db a
    · intro u v hw _
      rw [(List.append_eq_nil_iff.mp hw.symm).1]
      exact rests_nil db b
  | notPath a _ _ _ => by
    refine ⟨rfl, fun u v hw _ => ?_⟩
    rw [(List.append_eq_nil_iff.mp hw.symm).1]
    exact rests_nil db a

end Cursor

/-- What begins a key, or is one. -/
def OnKey (w : List Bool) : Prop := Stays 0 w ∨ IsCode w

theorem OnKey.of_append {u v : List Bool} (h : OnKey (u ++ v)) : OnKey u := by
  by_cases hv : v = []
  · rwa [hv, List.append_nil] at h
  · rcases h with h | h
    · exact Or.inl ((stays_append u v 0).mp h).1
    · exact Or.inl (h.stays_of_isPrefix (List.prefix_append u v) (by simpa using hv))

theorem OnKey.stays {u v : List Bool} (h : OnKey (u ++ v)) (hv : v ≠ []) : Stays 0 u := by
  rcases h with h | h
  · exact ((stays_append u v 0).mp h).1
  · exact h.stays_of_isPrefix (List.prefix_append u v) (by simpa using hv)

/-- A cursor on the tree goes along the ways of the tree. -/
theorem goes_eq {σ : Type} [PathBase σ] {db : Database} {T : BitTree} {R : σ → List Bool → Prop}
    (hT : Tracks db T R) :
    ∀ (w : List Bool) {x : σ} {v : List Bool}, R x v → T.mem v = true → OnKey (v ++ w) →
    PathBase.goes db w x = T.mem (v ++ w)
  | [], x, v, _, hm, _ => by
    rw [List.append_nil, hm]
    rfl
  | b :: w, x, v, hx, _, hw => by
    have hs : Stays 0 v := hw.stays (List.cons_ne_nil b w)
    have hassoc : v ++ b :: w = v ++ [b] ++ w := by simp
    rw [PathBase.goes, hT.canGo hx hs b]
    by_cases hb : T.mem (v ++ [b]) = true
    · rw [hb, Bool.true_and, goes_eq hT w (hT.go hx hs b hb).2 hb (hassoc ▸ hw), hassoc]
    · rw [Bool.not_eq_true] at hb
      have hnot : T.mem (v ++ [b] ++ w) = false := by
        rw [← Bool.not_eq_true]
        intro hm
        rw [T.mem_of_append hm] at hb
        cases hb
      rw [hb, Bool.false_and, hassoc, hnot]

/-- The cursors of `R` are on the tree, and so are their copies where the
cursor rests. -/
structure Rested (db : Database) (T : BitTree) (R : Cursor → List Bool → Prop) : Prop where
  tracks : Tracks db T R
  mem : ∀ {x w}, R x w → T.mem w = true
  copy : ∀ {c x w}, R c [] → R x w → OnKey w → c.Rests db w → R x.copy w

namespace Rested

variable {db : Database} {A B : BitTree} {RA RB : Cursor → List Bool → Prop}

theorem copy_start (h : Rested db A RA) {c : Cursor} (hc : RA c []) : RA c.copy [] :=
  h.copy hc hc (Or.inl trivial) (c.rests_nil db)

/-- Cursors that are on the tree as well. -/
theorem of_tracks {T : BitTree} {R : Cursor → List Bool → Prop} (hT : Tracks db T R)
    (hcopy : ∀ {c x w}, R c [] → R x w → T.mem w = true → OnKey w → c.Rests db w → R x.copy w) :
    Rested db T (fun x w => R x w ∧ T.mem w = true) where
  tracks :=
    { canGo := fun h hs b => hT.canGo h.1 hs b
      go := fun h hs b hm => ⟨(hT.go h.1 hs b hm).1, (hT.go h.1 hs b hm).2, hm⟩
      goUp := fun h hs => ⟨hT.goUp h.1 hs, T.closed h.2⟩
      isDeadEnd := fun h hs => hT.isDeadEnd h.1 hs }
  mem h := h.2
  copy hc hx hw hr := ⟨hcopy hc.1 hx.1 hx.2 hw hr, hx.2⟩

/-- An operand stops where it stands. -/
theorem stopsAt (h : Rested db A RA) {a x : Cursor} {u v : List Bool} (ha : RA a [])
    (hx : Behind A (RA x) u v)
    (hw : OnKey (u ++ v)) : a.StopsAt db u v := by
  have hgoes : ∀ w, OnKey w → PathBase.goes db w a = A.mem w :=
    fun w hw => goes_eq h.tracks w ha A.root hw
  refine ⟨?_, fun c v' hv => ?_⟩
  · rw [hgoes u hw.of_append]
    exact h.mem hx.stands
  · have hassoc : u ++ v = u ++ [c] ++ v' := by rw [hv]; simp
    rw [hgoes _ (hassoc ▸ hw).of_append]
    exact hx.off c v' hv

/-- The copy of an operand that fell behind. -/
theorem behind (h : Rested db A RA) {a x : Cursor} {u v : List Bool} (ha : RA a [])
    (hx : Behind A (RA x) u v)
    (hw : OnKey (u ++ v)) (hr : a.StopsAt db u v → a.Rests db u) : Behind A (RA x.copy) u v :=
  ⟨h.copy ha hx.stands hw.of_append (hr (h.stopsAt ha hx hw)), hx.off⟩

theorem andPath (hA : Rested db A RA) (hB : Rested db B RB) : ∃ R, Rested db (A.inter B) R ∧
    ∀ {a b}, RA a [] → RB b [] → R (.andPath a b) [] := by
  refine ⟨_, of_tracks (andPath_tracks hA.tracks.on hB.tracks.on).tracks ?_, fun ha hb =>
    ⟨⟨_, _, rfl, ha, hb⟩, (A.inter B).root⟩⟩
  rintro _ _ w ⟨a, b, rfl, ha, hb⟩ ⟨x, y, rfl, hx, hy⟩ - hw ⟨hra, hrb⟩
  exact ⟨_, _, rfl, hA.copy ha hx hw hra, hB.copy hb hy hw hrb⟩

theorem orPath (hA : Rested db A RA) (hB : Rested db B RB) : ∃ R, Rested db (A.union B) R ∧
    ∀ {a b}, RA a [] → RB b [] → R (.orPath a b 0 0) [] := by
  refine ⟨_, of_tracks (orPath_tracks hA.tracks.on hB.tracks.on).tracks ?_, fun ha hb =>
    ⟨⟨_, _, [], [], [], [], rfl, rfl, rfl, .here ha, .here hb, Or.inl rfl⟩, (A.union B).root⟩⟩
  rintro _ _ w ⟨a, b, u₀, v₀, u₀', v₀', rfl, h0, h0', ha, hb, -⟩ ⟨x, y, u, v, u', v', rfl, he, he',
    hx, hy, hv⟩ - hw ⟨hra, hrb⟩
  obtain ⟨rfl, rfl⟩ := List.append_eq_nil_iff.mp h0.symm
  obtain ⟨rfl, rfl⟩ := List.append_eq_nil_iff.mp h0'.symm
  exact ⟨_, _, u, v, u', v', rfl, he, he', hA.behind ha.stands hx (he ▸ hw) (hra u v he),
    hB.behind hb.stands hy (he' ▸ hw) (hrb u' v' he'), hv⟩

theorem notPath {RP : Path → List Bool → Prop} (hA : TracksOn (Stays 0) db A RP)
    (hcopy : ∀ {p w}, RP p w → RP p.copy w)
    (hground : ∀ w, A.mem w = true → Grounded w) (hB : Rested db B RB) :
    ∃ R, Rested db (A.diff B) R ∧
    ∀ {b bounds}, RB b [] → RP bounds [] → R (.notPath b bounds .empty 0) [] := by
  refine ⟨_, of_tracks (notPath_tracks hA hB.tracks.on hground).tracks ?_, fun hb hp =>
    ⟨⟨⟨_, _, _, [], [], rfl, rfl, .here hb, hp, stackAt_empty, A.root⟩, (A.diff B).root⟩,
      (A.diff B).root⟩⟩
  rintro _ _ w ⟨⟨b, _, _, u₀, v₀, rfl, h0, hb, -, -, -⟩, -⟩
    ⟨⟨y, bounds, stack, u, v, rfl, he, hy, hp, hst, hm⟩, hd⟩ - hw ⟨hzero, hr⟩
  obtain ⟨rfl, rfl⟩ := List.append_eq_nil_iff.mp h0.symm
  exact ⟨⟨_, _, _, u, v, rfl, he, hB.behind hb.stands hy (he ▸ hw) (hr u v he), hcopy hp,
    ⟨hst.bits, hzero.symm⟩, hm⟩, hd⟩

end Rested

/-- The cursor that is built is on the tree of its keys and has copies where
it rests, and building it changes nothing. -/
theorem CursorExpr.rested (toLower : BString → BString) {db : Database} {Γ : Heap} {L : Layout}
    {M : Store}
    (h : Rep db Γ L) (hM : Refines L M) : ∀ e : CursorExpr, (∀ ks ∈ e.paths, (M ks).isSome) →
    (e.build toLower db).2 = db ∧ ∃ T R, Rested db T R ∧ R (e.build toLower db).1 [] ∧
      ∀ key : Key, key.bits ∈ T.keys ↔ key ∈ e.meaning toLower M
  | path ks, hp => by
    have hks := hp ks (by simp [paths])
    obtain ⟨hR, hdb⟩ := h.getAll_root hM hks
    refine ⟨hdb, _, _, Rested.of_tracks (path_tracks (h.tracksOn hM hks _)).tracks ?_,
      ⟨⟨_, rfl, hR⟩, (h.tree hM hks).root⟩,
      Denotes.mem_under h hM hks⟩
    rintro _ _ w - ⟨p, rfl, hp⟩ - - -
    exact ⟨_, rfl, hp⟩
  | andPath a b, hp => by
    obtain ⟨hdb, A, RA, hA, ha, hSA⟩ := rested toLower h hM a fun ks hk =>
      hp ks (List.mem_append_left _ hk)
    obtain ⟨hdb', B, RB, hB, hb, hSB⟩ := rested toLower h hM b fun ks hk =>
      hp ks (List.mem_append_right _ hk)
    obtain ⟨R, hR, hstart⟩ := hA.andPath hB
    simp only [build, hdb, hdb']
    refine ⟨trivial, _, R, hR, hstart (hA.copy_start ha) (hB.copy_start hb), fun key => ?_⟩
    rw [BitTree.mem_keys_inter, hSA, hSB]
    rfl
  | orPath a b, hp => by
    obtain ⟨hdb, A, RA, hA, ha, hSA⟩ := rested toLower h hM a fun ks hk =>
      hp ks (List.mem_append_left _ hk)
    obtain ⟨hdb', B, RB, hB, hb, hSB⟩ := rested toLower h hM b fun ks hk =>
      hp ks (List.mem_append_right _ hk)
    obtain ⟨R, hR, hstart⟩ := hA.orPath hB
    simp only [build, hdb, hdb']
    refine ⟨trivial, _, R, hR, hstart (hA.copy_start ha) (hB.copy_start hb), fun key => ?_⟩
    rw [BitTree.mem_keys_union, hSA, hSB]
    rfl
  | notPath a bounds, hp => by
    have hks := hp bounds (by simp [paths])
    obtain ⟨hdb, A, RA, hA, ha, hSA⟩ := rested toLower h hM a fun ks hk =>
      hp ks (List.mem_cons_of_mem _ hk)
    obtain ⟨hbounds, hdb'⟩ := h.getAll_root hM hks
    obtain ⟨R, hR, hstart⟩ := Rested.notPath (h.tracksOn hM hks _) standsAt_copy
      (fun _ => h.grounded_tree hM hks) hA
    simp only [build, hdb, hdb']
    refine ⟨trivial, _, R, hR, hstart (hA.copy_start ha) (standsAt_copy hbounds), fun key => ?_⟩
    rw [BitTree.mem_keys_diff, hSA, Denotes.mem_under h hM hks]
    rfl
  | wordPath words word, hp => by
    have hks := hp words (by simp [paths])
    obtain ⟨hR, hdb⟩ := h.getAll_root hM hks
    simp only [build, hdb]
    refine ⟨trivial, ?_⟩
    rcases Denotes.newWordPath_eq toLower word h hM (standsAt_copy hR) with ⟨q, hq, hw,
      hstands⟩ | ⟨hq, hw⟩
    · rw [hq]
      refine ⟨_, _, Rested.of_tracks (wordPath_tracks (h.tracksOn hM hw _)).tracks ?_,
        ⟨⟨_, _, _, rfl, hstands⟩, (h.tree hM hw).root⟩, Denotes.mem_under h hM hw⟩
      rintro _ _ w - ⟨ws, v, p, rfl, hp⟩ - - -
      exact ⟨_, _, _, rfl, hp⟩
    · rw [hq]
      refine ⟨_, _, Rested.of_tracks wordPath_none_tracks.tracks ?_,
        ⟨⟨_, _, rfl, rfl⟩, BitTree.leaf.root⟩, fun key => ?_⟩
      · rintro _ _ w - ⟨ws, v, rfl, hw⟩ - - -
        exact ⟨_, _, rfl, hw⟩
      · rw [BitTree.keys_leaf, meaning, under_eq_empty h hM hw]
        simp

end BeeFish
