/-
# Enumeration meets every key once

`Tracks db T R` says that a cursor walks the tree `T`: whenever it stands at
`w` (`R`), it can go left and right as the tree does, and going leads to the
next position and leaves the file alone. Positions past the end of a key do
not matter, since the enumeration never goes there.

A cursor that goes down from `w` either stops at the first key below `w`, or
there is none and it comes back up to `w` (`Down`). A cursor that climbs from
`w` stops at the first key to the right of the way to `w`, or at the start if
there is none (`climb_lands`). So `next` steps from each key to the next one
(`next_lands`), and calling it again and again lists the keys of the tree
(`nextItems_lands`).

Key definitions: `Tracks`, `Walk.At`, `Lands`.
-/
import BeeFish.PathBase
import BeeFish.Lib.BitTree
import BeeFish.Lib.Fuel

namespace BeeFish

open BitCode

variable {σ : Type} [PathBase σ]

/-- Cursors on the tree `T`; `R p w` says that `p` stands at `w`. -/
structure Tracks (db : Database) (T : BitTree) (R : σ → List Bool → Prop) : Prop where
  canGo : ∀ {p w}, R p w → Stays 0 w → ∀ b, PathBase.canGo db p b = T.mem (w ++ [b])
  go : ∀ {p w}, R p w → Stays 0 w → ∀ b, T.mem (w ++ [b]) = true →
    (PathBase.go db p b).2 = db ∧ R (PathBase.go db p b).1 (w ++ [b])
  goUp : ∀ {p w b}, R p (w ++ [b]) → Stays 0 w → R (PathBase.goUp db p) w
  isDeadEnd : ∀ {p w}, R p w → Stays 0 w →
    PathBase.isDeadEnd db p = !(T.mem (w ++ [false]) || T.mem (w ++ [true]))

/-- Cursors on the tree `T` at the positions of `P`, which may lie past the end
of a key. -/
structure TracksOn (P : List Bool → Prop) (db : Database) (T : BitTree)
    (R : σ → List Bool → Prop) : Prop where
  canGo : ∀ {p w}, R p w → P w → ∀ b, PathBase.canGo db p b = T.mem (w ++ [b])
  go : ∀ {p w}, R p w → P w → ∀ b, T.mem (w ++ [b]) = true →
    (PathBase.go db p b).2 = db ∧ R (PathBase.go db p b).1 (w ++ [b])
  goUp : ∀ {p w b}, R p (w ++ [b]) → P w → R (PathBase.goUp db p) w
  isDeadEnd : ∀ {p w}, R p w → P w → PathBase.isDeadEnd db p =
    !(T.mem (w ++ [false]) || T.mem (w ++ [true]))

theorem Tracks.on {db : Database} {T : BitTree} {R : σ → List Bool → Prop} (h : Tracks db T R) :
    TracksOn (Stays 0) db T R :=
  ⟨h.canGo, h.go, h.goUp, h.isDeadEnd⟩

theorem TracksOn.tracks {db : Database} {T : BitTree} {R : σ → List Bool → Prop}
    (h : TracksOn (Stays 0) db T R) : Tracks db T R :=
  ⟨h.canGo, h.go, h.goUp, h.isDeadEnd⟩

theorem TracksOn.mono {Q : List Bool → Prop} {db : Database} {T : BitTree}
    {R : σ → List Bool → Prop} (h : TracksOn P db T R)
    (hQ : ∀ w, Q w → P w) : TracksOn Q db T R where
  canGo hR hw := h.canGo hR (hQ _ hw)
  go hR hw := h.go hR (hQ _ hw)
  goUp hR hw := h.goUp hR (hQ _ hw)
  isDeadEnd hR hw := h.isDeadEnd hR (hQ _ hw)

/-- The walk is at `w`: its cursor is there and its stack holds the way. -/
structure Walk.At (db : Database) (R : σ → List Bool → Prop) (c : Walk σ)
    (w : List Bool) : Prop where
  db : c.db = db
  path : R c.path w
  stack : StackAt w c.stack

/-- What a walk that has the keys `ks` before it comes to: the first of them,
with the others to its right, or the start. -/
def Lands (T : BitTree) (db : Database) (R : σ → List Bool → Prop) : List (List Bool) →
    Bool × Walk σ → Prop
  | [], r => r.1 = false ∧ r.2.At db R []
  | k :: ks, r => r.1 = true ∧ IsCode k ∧ r.2.At db R k ∧ T.later k = ks

section

variable {db : Database} {T : BitTree} {R : σ → List Bool → Prop} {c : Walk σ} {w : List Bool}

namespace Walk.At

variable {P : List Bool → Prop}

omit [PathBase σ] in
theorem size_ne_zero (h : c.At db R w) (hw : w ≠ []) : c.stack.size ≠ 0 := by
  rw [h.stack.size]
  exact fun h0 => hw (List.length_eq_zero_iff.mp h0)

section

variable (hT : TracksOn P db T R)

include hT

theorem canGoLeft (h : c.At db R w) (hs : P w) : c.canGoLeft = T.mem (w ++ [false]) := by
  rw [Walk.canGoLeft, h.db]
  exact hT.canGo h.path hs false

theorem canGoRight (h : c.At db R w) (hs : P w) : c.canGoRight = T.mem (w ++ [true]) := by
  rw [Walk.canGoRight, h.db]
  exact hT.canGo h.path hs true

theorem left (h : c.At db R w) (hs : P w) (hm : T.mem (w ++ [false]) = true) :
    c.left.At db R (w ++ [false]) := by
  obtain ⟨h1, h2⟩ := hT.go h.path hs false hm
  have hdb := h.db
  subst hdb
  exact ⟨h1, h2, h.stack.push_back false⟩

theorem right (h : c.At db R w) (hs : P w) (hm : T.mem (w ++ [true]) = true) :
    c.right.At db R (w ++ [true]) := by
  obtain ⟨h1, h2⟩ := hT.go h.path hs true hm
  have hdb := h.db
  subst hdb
  exact ⟨h1, h2, h.stack.push_back true⟩

theorem goUp {b : Bool} (h : c.At db R (w ++ [b])) (hs : P w) (hb : b = true ∨ 0 < height 0 w) :
    c.up.At db R w := by
  have hdb := h.db
  subst hdb
  exact ⟨rfl, hT.goUp h.path hs, h.stack.pop_back hb⟩

end

theorem up (hT : Tracks db T R) {b : Bool} (h : c.At db R (w ++ [b])) (hs : Stays 0 w)
    (hb : b = true ∨ w ≠ []) :
    c.up.At db R w :=
  h.goUp hT.on hs (hb.imp_right fun hne => height_pos_of_stays w 0 hs (Or.inr hne))

end Walk.At

/-! ### Climbing one step -/

/-- Off a right bit, or a left one with nothing to its right, the climb goes
on from the parent. -/
theorem climb_up (hT : Tracks db T R) {b : Bool} (h : c.At db R (w ++ [b])) (hs : Stays 0 w)
    (hw : b = true ∨ w ≠ [])
    (hb : b = true ∨ T.mem (w ++ [true]) = false) {r : Bool × Walk σ}
    (hr : Returns (Walk.climb · c.up) r) :
    Returns (Walk.climb · c) r := by
  refine hr.step fun fuel => ?_
  have hup := (h.up hT hs hw).canGoRight hT.on hs
  have hif : ¬ (c.up.canGoRight && b == false) = true := by
    rw [hup]
    rcases hb with rfl | hb
    · simp
    · simp [hb]
  rw [Walk.climb, if_neg (h.size_ne_zero (by simp))]
  dsimp only
  rw [h.stack.last, if_neg hif]

/-- Off a left bit with something to its right, the walk goes there. -/
theorem climb_right (hT : Tracks db T R) (h : c.At db R (w ++ [false])) (hs : Stays 0 w)
    (hw : w ≠ [])
    (hm : T.mem (w ++ [true]) = true) {r : Bool × Walk σ}
    (hr : Returns (Walk.followMin · c.up.right) r) :
    Returns (Walk.climb · c) r := by
  refine hr.step fun fuel => ?_
  have hup := (h.up hT hs (Or.inr hw)).canGoRight hT.on hs
  rw [Walk.climb, if_neg (h.size_ne_zero (by simp))]
  dsimp only
  rw [h.stack.last, hup, hm]
  rfl

/-! ### Going down -/

/-- A walk that goes down from `w` stops at the first key below `w`, or comes
back up to `w` and climbs on. -/
def Down (T : BitTree) (db : Database) (R : σ → List Bool → Prop)
    (F : ℕ → Walk σ → Option (Bool × Walk σ))
    (w : List Bool) : Prop :=
  ∀ c, c.At db R w →
    (∃ k ks c', T.below w = k :: ks ∧ Returns (F · c) (true, c') ∧ IsCode k ∧ c'.At db R k ∧
      T.later k = ks ++ T.later w) ∨
    (T.below w = [] ∧ ∃ c', c'.At db R w ∧ ∀ r, Returns (Walk.climb · c') r → Returns (F · c) r)

/-- The loop that goes down, with what it does at a dead end. -/
def DownLoop (F G : ℕ → Walk σ → Option (Bool × Walk σ)) : Prop :=
  ∀ fuel c, F (fuel + 1) c =
    if c.canGoLeft then if c.left.stack.count = 0 then some (true, c.left) else F fuel c.left
    else if c.canGoRight then if c.right.stack.count = 0 then some (true, c.right)
      else F fuel c.right
    else G fuel c

theorem down_step (hT : Tracks db T R) {F G : ℕ → Walk σ → Option (Bool × Walk σ)}
    (hF : DownLoop F G)
    (hG : ∀ {c : Walk σ} {r}, c.stack.size ≠ 0 → Returns (Walk.climb · c) r → Returns (G · c) r)
    (hs : Stays 0 w) (hw : w ≠ [])
    (ih : ∀ b, T.mem (w ++ [b]) = true → Stays 0 (w ++ [b]) →
      Down T db R F (w ++ [b]) ∧ Down T db R Walk.followMin (w ++ [b])) : Down T db R F w := by
  intro c h
  have hl := h.canGoLeft hT.on hs
  have hr := h.canGoRight hT.on hs
  -- coming up from the right child, the walk climbs on from `w`
  have hup : ∀ {c' : Walk σ}, c'.At db R (w ++ [true]) →
      ∃ c'', c''.At db R w ∧ ∀ r, Returns (Walk.climb · c'') r → Returns (Walk.climb · c') r :=
        fun h' =>
    ⟨_, h'.up hT hs (Or.inl rfl), fun r => climb_up hT h' hs (Or.inl rfl) (Or.inl rfl)⟩
  rw [T.below_eq]
  by_cases hml : T.mem (w ++ [false]) = true
  · have hleft := h.left hT.on hs hml
    rw [if_pos hml]
    by_cases h0 : height 0 (w ++ [false]) = 0
    · -- the left child is a key
      rw [if_pos h0]
      refine Or.inl ⟨_, _, c.left, rfl, .of_succ fun fuel => ?_,
        (BitTree.height_concat_zero hs hw).mp h0, hleft,
        T.later_concat_false w⟩
      rw [hF, hl, hml, if_pos rfl, if_pos (by rw [hleft.stack.count, h0])]
    · rw [if_neg h0]
      have hs0 := BitTree.stays_concat_false hs h0
      have hstep : ∀ r, Returns (F · c.left) r → Returns (F · c) r :=
        fun r hr => hr.step fun fuel => by
        rw [hF, hl, hml, if_pos rfl, if_neg (by rw [hleft.stack.count]; exact h0)]
      rcases (ih false hml hs0).1 _ hleft with ⟨k, ks, c', hb, hret, hk, hat, hlater⟩ | ⟨hb,
        c₁, hat, hret⟩
      · rw [hb]
        refine Or.inl ⟨k, ks ++ _, c', rfl, hstep _ hret, hk, hat, ?_⟩
        rw [hlater, T.later_concat_false, List.append_assoc]
      · -- nothing on the left: the walk comes up and tries the right
        rw [hb, List.nil_append]
        have hat' := hat.up hT hs (Or.inr hw)
        by_cases hmr : T.mem (w ++ [true]) = true
        · rw [if_pos hmr]
          have hright := hat'.right hT.on hs hmr
          rcases (ih true hmr (stays_append_true hs)).2 _ hright with
            ⟨k, ks, c', hb', hret', hk, hatk, hlater⟩ | ⟨hb', c₂, hat₂, hret'⟩
          · refine Or.inl ⟨k, ks, c', hb', ?_, hk, hatk, by rw [hlater, T.later_concat_true]⟩
            exact hstep _ (hret _ (climb_right hT hat hs hw hmr hret'))
          · obtain ⟨c₃, hat₃, hret₃⟩ := hup hat₂
            refine Or.inr ⟨hb', c₃, hat₃, fun r hr => ?_⟩
            exact hstep _ (hret _ (climb_right hT hat hs hw hmr (hret' _ (hret₃ r hr))))
        · rw [if_neg hmr]
          refine Or.inr ⟨rfl, _, hat', fun r hr => hstep _ (hret _ ?_)⟩
          exact climb_up hT hat hs (Or.inr hw) (Or.inr (by simpa using hmr)) hr
  · have hl' : c.canGoLeft = false := by rw [hl]; simpa using hml
    rw [if_neg hml, List.nil_append]
    by_cases hmr : T.mem (w ++ [true]) = true
    · rw [if_pos hmr]
      have hright := h.right hT.on hs hmr
      have hcount : c.right.stack.count ≠ 0 := by
        rw [hright.stack.count]
        exact (height_pos_of_stays _ 0 (stays_append_true hs) (Or.inr (by simp))).ne'
      have hstep : ∀ r, Returns (F · c.right) r → Returns (F · c) r :=
        fun r hret => hret.step fun fuel => by
        rw [hF, hl', if_neg (by simp), hr, hmr, if_pos rfl, if_neg hcount]
      rcases (ih true hmr (stays_append_true hs)).1 _ hright with
        ⟨k, ks, c', hb, hret, hk, hat, hlater⟩ | ⟨hb, c₁, hat, hret⟩
      · exact Or.inl ⟨k, ks, c', hb, hstep _ hret, hk, hat, by rw [hlater, T.later_concat_true]⟩
      · obtain ⟨c₂, hat₂, hret₂⟩ := hup hat
        exact Or.inr ⟨hb, c₂, hat₂, fun r hr => hstep _ (hret _ (hret₂ r hr))⟩
    · rw [if_neg hmr]
      have hr' : c.canGoRight = false := by rw [hr]; simpa using hmr
      refine Or.inr ⟨rfl, c, h, fun r hret => (hG (h.size_ne_zero hw) hret).step fun fuel => ?_⟩
      rw [hF, hl', hr', if_neg (by simp), if_neg (by simp)]

theorem downLoop_followMin : DownLoop (σ := σ) Walk.followMin Walk.climb :=
  fun fuel c => by rw [Walk.followMin]

theorem downLoop_goToMin : DownLoop (σ := σ) Walk.goToMin Walk.next :=
  fun fuel c => by rw [Walk.goToMin]

theorem next_of_climb {r : Bool × Walk σ} (hc : c.stack.size ≠ 0)
    (hr : Returns (Walk.climb · c) r) :
    Returns (Walk.next · c) r := hr.step fun fuel => by rw [Walk.next, if_neg hc]

theorem down (hT : Tracks db T R) (hm : T.mem w = true) : Stays 0 w → w ≠ [] →
    Down T db R Walk.followMin w ∧ Down T db R Walk.goToMin w := by
  refine T.induct (P := fun w => Stays 0 w → w ≠ [] →
    Down T db R Walk.followMin w ∧ Down T db R Walk.goToMin w) ?_ w hm
  intro w _ ih hs hw
  constructor
  · exact down_step hT downLoop_followMin (fun _ h => h) hs hw fun b hb hsb =>
      ⟨(ih b hb hsb (by simp)).1, (ih b hb hsb (by simp)).1⟩
  · exact down_step hT downLoop_goToMin next_of_climb hs hw fun b hb hsb =>
      ⟨(ih b hb hsb (by simp)).2, (ih b hb hsb (by simp)).1⟩

/-! ### From one key to the next -/

theorem climb_start (h : c.At db R []) : Returns (Walk.climb · c) (false, c) :=
  .of_succ fun fuel => by rw [Walk.climb, if_pos (by rw [h.stack.size]; rfl)]

/-- A climb from `w` stops at the first key to the right of the way to `w`. -/
theorem climb_lands (hT : Tracks db T R) : ∀ {w : List Bool} {c : Walk σ}, c.At db R w →
    (Stays 0 w ∨ IsCode w) →
    ∃ r, Returns (Walk.climb · c) r ∧ Lands T db R (T.later w) r := by
  intro w
  induction w using List.reverseRecOn with
  | nil => exact fun {c} h _ => ⟨(false, c), climb_start h, rfl, h⟩
  | append_singleton u b ih =>
    intro c h hw
    have hs : Stays 0 u := by
      rcases hw with hw | hw
      · exact ((stays_append u [b] 0).mp hw).1
      · exact hw.stays_of_isPrefix (List.prefix_append u [b]) fun he => by
          simpa using congrArg List.length he
    have hub : b = true ∨ u ≠ [] := by
      by_contra hn
      simp only [not_or, Bool.not_eq_true, ne_eq, not_not] at hn
      obtain ⟨rfl, rfl⟩ := hn
      rcases hw with hw | hw
      · exact absurd hw.1 (by omega)
      · obtain ⟨v, hv⟩ := hw.exists_cons
        cases hv
    have hup := h.up hT hs hub
    by_cases hb : b = true ∨ T.mem (u ++ [true]) = false
    · obtain ⟨r, hr, hl⟩ := ih hup (Or.inl hs)
      refine ⟨r, climb_up hT h hs hub hb hr, ?_⟩
      have hlater : T.later (u ++ [b]) = T.later u := by
        cases b with
        | true => exact T.later_concat_true u
        | false => simp [hb.resolve_left (by decide)]
      rwa [hlater]
    · simp only [not_or, Bool.not_eq_true, Bool.not_eq_false] at hb
      obtain ⟨rfl, hm⟩ := hb
      have hu := hub.resolve_left (by decide)
      have hright := hup.right hT.on hs hm
      rw [T.later_concat_false, if_pos hm]
      rcases (down hT hm (stays_append_true hs) (by simp)).1 _ hright with
        ⟨k, ks, c', hb, hret, hk, hat, hlater⟩ | ⟨hb, c₁, hat, hret⟩
      · rw [hb]
        exact ⟨(true, c'), climb_right hT h hs hu hm hret, rfl, hk, hat,
          by rw [hlater, T.later_concat_true]; rfl⟩
      · obtain ⟨r, hr, hl⟩ := ih (hat.up hT hs (Or.inl rfl)) (Or.inl hs)
        rw [hb, List.nil_append]
        exact ⟨r, climb_right hT h hs hu hm
          (hret _ (climb_up hT hat hs (Or.inl rfl) (Or.inl rfl) hr)), hl⟩

theorem keys_eq (T : BitTree) : T.keys = if T.mem [true] then T.below [true] else [] := by
  have h0 : T.mem ([] ++ [false]) = false := T.no_zero
  rw [BitTree.keys, T.below_eq, h0]
  simp

theorem isDeadEnd_start (hT : Tracks db T R) (h : c.At db R []) : c.isDeadEnd = !T.mem [true] := by
  have h0 : T.mem ([] ++ [false]) = false := T.no_zero
  rw [Walk.isDeadEnd, h.db, hT.isDeadEnd h.path trivial, h0]
  simp

theorem next_dead (hT : Tracks db T R) (h : c.At db R []) (hm : T.mem [true] = false) :
    Returns (Walk.next · c) (false, c) :=
  .of_succ fun fuel => by
    rw [Walk.next, if_pos (by rw [h.stack.size]; rfl), isDeadEnd_start hT h, hm]
    rfl

/-- `goToMin` from the start comes to the first key. -/
theorem goToMin_lands (hT : Tracks db T R) (h : c.At db R []) :
    ∃ r, Returns (Walk.goToMin · c) r ∧ Lands T db R T.keys r := by
  have hl : c.canGoLeft = false := (h.canGoLeft hT.on trivial).trans T.no_zero
  have hr : c.canGoRight = T.mem [true] := h.canGoRight hT.on trivial
  rw [keys_eq]
  by_cases hm : T.mem [true] = true
  · have hright : c.right.At db R [true] := h.right hT.on trivial hm
    have hstep : ∀ r, Returns (Walk.goToMin · c.right) r → Returns (Walk.goToMin · c) r :=
      fun r hret =>
      hret.step fun fuel => by
        rw [Walk.goToMin, hl, hr, hm, if_neg (by simp), if_pos rfl,
          if_neg (by rw [hright.stack.count]; simp)]
    rw [if_pos hm]
    rcases (down hT hm (by simp) (by simp)).2 _ hright with
      ⟨k, ks, c', hb, hret, hk, hat, hlater⟩ | ⟨hb, c₁, hat, hret⟩
    · rw [hb]
      refine ⟨_, hstep _ hret, rfl, hk, hat, ?_⟩
      rw [hlater, show T.later [true] = [] from T.later_concat_true []]
      simp
    · rw [hb]
      have hat' : c₁.up.At db R [] := Walk.At.up (w := []) (b := true) hT hat trivial (Or.inl rfl)
      exact ⟨_,
        hstep _ (hret _ (climb_up (w := []) hT hat trivial (Or.inl rfl) (Or.inl rfl)
        (climb_start hat'))),
        rfl, hat'⟩
  · have hm' : T.mem [true] = false := by simpa using hm
    rw [if_neg hm]
    refine ⟨(false, c), (next_dead hT h hm').step fun fuel => ?_, rfl, h⟩
    rw [Walk.goToMin, hl, hr, hm', if_neg (by simp), if_neg (by simp)]

/-- `next` from the start comes to the first key. -/
theorem next_lands_start (hT : Tracks db T R) (h : c.At db R []) :
    ∃ r, Returns (Walk.next · c) r ∧ Lands T db R T.keys r := by
  by_cases hm : T.mem [true] = true
  · obtain ⟨r, hr, hl⟩ := goToMin_lands hT h
    refine ⟨r, hr.step fun fuel => ?_, hl⟩
    rw [Walk.next, if_pos (by rw [h.stack.size]; rfl), isDeadEnd_start hT h, hm, if_neg (by simp)]
  · rw [keys_eq, if_neg hm]
    exact ⟨(false, c), next_dead hT h (by simpa using hm), rfl, h⟩

/-- `next` from a key comes to the first key to its right. -/
theorem next_lands (hT : Tracks db T R) {k : List Bool} (hk : IsCode k) (h : c.At db R k) :
    ∃ r, Returns (Walk.next · c) r ∧ Lands T db R (T.later k) r := by
  obtain ⟨r, hr, hl⟩ := climb_lands hT h (Or.inr hk)
  exact ⟨r, next_of_climb (h.size_ne_zero hk.ne_nil) hr, hl⟩

/-! ### All keys -/

section

variable {α : Type} [Encoded α] [LawfulEncoded α]

omit [PathBase σ] in
/-- The item read off the stack at its key. -/
theorem readItem_of_at {a : α} (h : c.At db R (encode a)) :
    ∃ c', Walk.readItem (true, c) = some (some a, c') ∧ c'.At db R (encode a) := by
  have hrest : c.stack.reset.rest = encode a ++ [] := by
    simp [Stack.rest, h.stack.bits]
  have hd := LawfulEncoded.decode_encode a hrest rfl
  refine ⟨{ c with stack := c.stack.reset.advance (encode a) }, by simp [Walk.readItem, hd], h.db,
    h.path, ?_⟩
  exact .of_code (LawfulEncoded.isCode a) (by simp [h.stack.bits]) (by
    simp [height_closes (LawfulEncoded.isCode a)])

/-- Calls of `next(stack, item)` from a place with the items `as` before it
give just these, and then come back to the start. -/
theorem nextItems_lands (hT : Tracks db T R) : ∀ (as : List α) {c : Walk σ},
    (∃ r, Returns (Walk.next · c) r ∧ Lands T db R (as.map encode) r) →
    ∃ c', Returns (Walk.nextItems · c) (as, c') ∧ c'.At db R []
  | [], c, ⟨(found, c'), hr, hl⟩ => by
    obtain ⟨rfl, hat⟩ : found = false ∧ c'.At db R [] := hl
    have hitem : Returns (fun fuel => Walk.nextItem (α := α) fuel c) (none, c') := hr.bind_some rfl
    exact ⟨c', hitem.bind (g := fun p fuel => Walk.moreItems (Walk.nextItems fuel) p)
      ⟨0, fun _ _ => rfl⟩
      fun _ => rfl, hat⟩
  | a :: as, c, ⟨(found, c'), hr, hl⟩ => by
    obtain ⟨rfl, hk, hat, hlater⟩ : found = true ∧ IsCode (encode a) ∧ c'.At db R (encode a) ∧
      T.later (encode a) = as.map encode := hl
    obtain ⟨c₁, hread, hat₁⟩ := readItem_of_at hat
    have hitem : Returns (fun fuel => Walk.nextItem (α := α) fuel c) (some a, c₁) :=
      hr.bind_some hread
    obtain ⟨c₂, hrest, hat₂⟩ := nextItems_lands hT as (hlater ▸ next_lands hT hk hat₁)
    refine ⟨c₂, hitem.bind (g := fun p fuel => Walk.moreItems (Walk.nextItems fuel) p)
      ?_ fun _ => rfl, hat₂⟩
    exact hrest.map fun r => (a :: r.1, r.2)

variable {p : σ} {as : List α}

omit [PathBase σ] in
theorem at_start (db : Database) (h : R p []) : (⟨db, p, .empty⟩ : Walk σ).At db R [] :=
  ⟨rfl, h, stackAt_empty⟩

omit [LawfulEncoded α] in
theorem exists_items : ∀ {ks : List (List Bool)}, (∀ k ∈ ks, ∃ a : α, encode a = k) → ∃ as : List α,
    as.map encode = ks
  | [], _ => ⟨[], rfl⟩
  | k :: ks, h => by
    obtain ⟨a, ha⟩ := h k List.mem_cons_self
    obtain ⟨as, has⟩ := exists_items fun j hj => h j (List.mem_cons_of_mem k hj)
    exact ⟨a :: as, by rw [List.map_cons, ha, has]⟩

/-- **Enumeration from the start lists the keys of the tree**, in its order
and each once, and comes back. -/
theorem nextItems_all (hT : Tracks db T R) (h : R p []) (hi : as.map encode = T.keys) :
    ∃ c, Returns (Walk.nextItems · ⟨db, p, .empty⟩) (as, c) ∧ c.At db R [] := by
  refine nextItems_lands hT as ?_
  rw [hi]
  exact next_lands_start hT (at_start db h)

omit [LawfulEncoded α] in
theorem goToMin_first (hT : Tracks db T R) (h : R p []) (hi : as.map encode = T.keys) :
    ∃ c, Returns (Walk.goToMin · ⟨db, p, .empty⟩) (!as.isEmpty, c) ∧
      c.stack.bits = (as.head?.map encode).getD [] := by
  obtain ⟨⟨found, c⟩, hr, hl⟩ := goToMin_lands hT (at_start db h)
  rw [← hi] at hl
  cases as with
  | nil =>
    obtain ⟨rfl, hat⟩ : found = false ∧ c.At db R [] := hl
    exact ⟨c, hr, hat.stack.bits⟩
  | cons a as =>
    obtain ⟨rfl, -, hat, -⟩ : found = true ∧ IsCode (encode a) ∧ c.At db R (encode a) ∧
      T.later (encode a) = as.map encode := hl
    exact ⟨c, hr, hat.stack.bits⟩

theorem min_first (hT : Tracks db T R) (h : R (PathBase.copy p) []) (hi : as.map encode = T.keys) :
    Returns (fun fuel => Walk.min fuel db p) as.head? := by
  obtain ⟨⟨found, c⟩, hr, hl⟩ := goToMin_lands hT (at_start db h)
  rw [← hi] at hl
  cases as with
  | nil =>
    obtain ⟨rfl, -⟩ : found = false ∧ c.At db R [] := hl
    exact (hr.bind_some (r := (none, c)) rfl).map Prod.fst
  | cons a as =>
    obtain ⟨rfl, -, hat, -⟩ : found = true ∧ IsCode (encode a) ∧ c.At db R (encode a) ∧
      T.later (encode a) = as.map encode := hl
    obtain ⟨c₁, hread, -⟩ := readItem_of_at hat
    exact (hr.bind_some hread).map Prod.fst

end

end

end BeeFish
