/-
# Going back

`previous` and `goToMax` (Database/PathBase.hpp) go right where `next` and
`goToMin` go left, and the other way round, with one difference. Where `next`
comes up from the left and goes right, the count is not zero, and it need not
look at it. Where `previous` comes up from the right and goes left, a key may
end there; it does not look, passes the key and goes on below it, among the
keys that are nested under it. So repeated `previous` gives the keys where it
stops (`BitTree.Stops`), and they are the keys in reverse exactly if there is
one stop below each of them (`previousItems_all`).

Key definitions: `Walk.previousItems`, `LandsBack`.
-/
import BeeFish.Enumerate
import BeeFish.Lib.Backward

namespace BeeFish

open BitCode BitTree

namespace Walk

variable {σ : Type} [PathBase σ] {α : Type} [Encoded α]

/-- `PathBase::previous(stack, item)` -/
def previousItem (fuel : ℕ) (c : Walk σ) : Option (Option α × Walk σ) :=
  (previous fuel c).bind readItem

/-- `previous(stack, item)` again and again until it returns false. -/
def previousItems : ℕ → Walk σ → Option (List α × Walk σ)
  | 0, _ => none
  | fuel + 1, c => (previousItem fuel c).bind (moreItems (previousItems fuel))

end Walk

section

variable {σ : Type} [PathBase σ] {db : Database} {T : BitTree} {R : σ → List Bool → Prop}
    {c : Walk σ} {w : List Bool}

/-- What a walk back that has the stops `ss` before it comes to: the first of
them, with the others to its left, or the start. -/
def LandsBack (T : BitTree) (db : Database) (R : σ → List Bool → Prop) : List (List Bool) →
    Bool × Walk σ → Prop
  | [], r => r.1 = false ∧ r.2.At db R []
  | s :: ss, r => r.1 = true ∧ r.2.At db R s ∧ T.backFrom s = ss

/-- A walk back that goes down from `w` stops at the first stop below `w`, or
comes back up to `w` and climbs on. -/
def DownBack (T : BitTree) (db : Database) (R : σ → List Bool → Prop)
    (F : ℕ → Walk σ → Option (Bool × Walk σ))
    (w : List Bool) : Prop :=
  ∀ c, c.At db R w →
    (∃ s ss c', T.back w = s :: ss ∧ Returns (F · c) (true, c') ∧ c'.At db R s ∧
      T.backFrom s = ss ++ T.backFrom w) ∨
    (T.back w = [] ∧ ∃ c', c'.At db R w ∧ ∀ r, Returns (Walk.climbBack · c') r → Returns (F · c) r)

/-- The loop that goes down, with what it does at a dead end. -/
def DownBackLoop (F G : ℕ → Walk σ → Option (Bool × Walk σ)) : Prop :=
  ∀ fuel c, F (fuel + 1) c =
    if c.canGoRight then if c.right.stack.count = 0 then some (true, c.right) else F fuel c.right
    else if c.canGoLeft then if c.left.stack.count = 0 then some (true, c.left) else F fuel c.left
    else G fuel c

variable (hT : TracksOn Grounded db T R) (hground : ∀ w, T.mem w = true → Grounded w)

include hT hground

/-! ### Climbing one step -/

/-- Where a zero is taken, the walk is above the ground. -/
theorem up_of_mem {b : Bool} (h : c.At db R (w ++ [b])) (hm : T.mem (w ++ [b]) = true) :
    c.up.At db R w := by
  refine h.goUp hT ((hground _ hm).of_isPrefix (List.prefix_append w [b])) ?_
  cases b with
  | true => exact Or.inl rfl
  | false => exact Or.inr (hground _ hm w List.prefix_rfl)

/-- Off a left bit, or a right one with nothing to its left, the climb goes on
from the parent. -/
theorem climbBack_up {b : Bool} (h : c.At db R (w ++ [b])) (hm : T.mem (w ++ [b]) = true)
    (hb : b = false ∨ T.mem (w ++ [false]) = false) {r : Bool × Walk σ}
    (hr : Returns (Walk.climbBack · c.up) r) :
    Returns (Walk.climbBack · c) r := by
  refine hr.step fun fuel => ?_
  have hup := (up_of_mem hT hground h hm).canGoLeft hT (hground _ (T.closed hm))
  have hif : ¬ (c.up.canGoLeft && b == true) = true := by
    rw [hup]
    rcases hb with rfl | hb
    · simp
    · simp [hb]
  rw [Walk.climbBack, if_neg (h.size_ne_zero (by simp))]
  dsimp only
  rw [h.stack.last, if_neg hif]

/-- Off a right bit with something to its left, the walk goes there and on. -/
theorem climbBack_left (h : c.At db R (w ++ [true])) (hm : T.mem (w ++ [true]) = true)
    (hl : T.mem (w ++ [false]) = true)
    {r : Bool × Walk σ} (hr : Returns (Walk.followMax · c.up.left) r) :
    Returns (Walk.climbBack · c) r := by
  refine hr.step fun fuel => ?_
  have hup := (up_of_mem hT hground h hm).canGoLeft hT (hground _ (T.closed hm))
  rw [Walk.climbBack, if_neg (h.size_ne_zero (by simp))]
  dsimp only
  rw [h.stack.last, hup, hl]
  rfl

/-! ### Going down -/

theorem downBack_step {F G : ℕ → Walk σ → Option (Bool × Walk σ)} (hF : DownBackLoop F G)
    (hG : ∀ {c : Walk σ} {r}, c.stack.size ≠ 0 → Returns (Walk.climbBack · c) r → Returns (G · c) r)
    (hw : w ≠ []) (hmw : T.mem w = true)
    (ih : ∀ b, T.mem (w ++ [b]) = true → DownBack T db R F (w ++ [b]) ∧
      DownBack T db R Walk.followMax (w ++ [b])) :
    DownBack T db R F w := by
  intro c h
  have hs := hground w hmw
  have hl := h.canGoLeft hT hs
  have hr := h.canGoRight hT hs
  rw [T.back_eq]
  by_cases hmr : T.mem (w ++ [true]) = true
  · have hright := h.right hT hs hmr
    have hcount : c.right.stack.count ≠ 0 := by
      rw [hright.stack.count]
      exact height_concat_true_ne w
    have hstep : ∀ r, Returns (F · c.right) r → Returns (F · c) r :=
      fun r hret => hret.step fun fuel => by
      rw [hF, hr, hmr, if_pos rfl, if_neg hcount]
    rw [if_pos hmr]
    rcases (ih true hmr).1 _ hright with ⟨s, ss, c', hb, hret, hat, hfrom⟩ | ⟨hb, c₁, hat, hret⟩
    · rw [hb]
      refine Or.inl ⟨s, ss ++ _, c', rfl, hstep _ hret, hat, ?_⟩
      rw [hfrom, T.backFrom_concat_true, List.append_assoc]
    · -- nothing on the right: the walk comes up and goes left, whatever ends there
      rw [hb, List.nil_append]
      have hat' := up_of_mem hT hground hat hmr
      by_cases hml : T.mem (w ++ [false]) = true
      · rw [if_pos hml]
        have hleft := hat'.left hT hs hml
        rcases (ih false hml).2 _ hleft with ⟨s, ss, c', hb', hret', hats, hfrom⟩ | ⟨hb', c₂,
          hat₂, hret'⟩
        · refine Or.inl ⟨s, ss, c', hb', ?_, hats, by rw [hfrom, T.backFrom_concat_false]⟩
          exact hstep _ (hret _ (climbBack_left hT hground hat hmr hml hret'))
        · refine Or.inr ⟨hb', _, up_of_mem hT hground hat₂ hml, fun r hr' => ?_⟩
          apply hstep _ (hret _ (climbBack_left hT hground hat hmr hml (hret' _ _)))
          exact climbBack_up hT hground hat₂ hml (Or.inl rfl) hr'
      · rw [if_neg hml]
        refine Or.inr ⟨rfl, _, hat', fun r hr' => hstep _ (hret _ ?_)⟩
        exact climbBack_up hT hground hat hmr (Or.inr (by simpa using hml)) hr'
  · have hr' : c.canGoRight = false := by rw [hr]; simpa using hmr
    rw [if_neg hmr]
    by_cases hml : T.mem (w ++ [false]) = true
    · have hleft := h.left hT hs hml
      rw [if_pos hml]
      by_cases h0 : height 0 (w ++ [false]) = 0
      · -- a key ends on the left, and nothing is on the right
        rw [if_pos h0]
        refine Or.inl ⟨_, [], c.left, rfl, .of_succ fun fuel => ?_, hleft,
          T.backFrom_concat_false w⟩
        rw [hF, hr', if_neg (by simp), hl, hml, if_pos rfl, if_pos (by rw [hleft.stack.count, h0])]
      · rw [if_neg h0]
        have hstep : ∀ r, Returns (F · c.left) r → Returns (F · c) r :=
          fun r hret => hret.step fun fuel => by
          rw [hF, hr', if_neg (by simp), hl, hml, if_pos rfl,
            if_neg (by rw [hleft.stack.count]; exact h0)]
        rcases (ih false hml).1 _ hleft with ⟨s, ss, c', hb, hret, hat, hfrom⟩ | ⟨hb, c₁, hat, hret⟩
        · exact Or.inl ⟨s, ss, c', hb, hstep _ hret, hat, by rw [hfrom, T.backFrom_concat_false]⟩
        · refine Or.inr ⟨hb, _, up_of_mem hT hground hat hml, fun r hret' => hstep _ (hret _ ?_)⟩
          exact climbBack_up hT hground hat hml (Or.inl rfl) hret'
    · rw [if_neg hml]
      have hl' : c.canGoLeft = false := by rw [hl]; simpa using hml
      refine Or.inr ⟨rfl, c, h, fun r hret => (hG (h.size_ne_zero hw) hret).step fun fuel => ?_⟩
      rw [hF, hr', hl', if_neg (by simp), if_neg (by simp)]

omit hT hground in
theorem downBackLoop_followMax : DownBackLoop (σ := σ) Walk.followMax Walk.climbBack :=
  fun fuel c => by rw [Walk.followMax]

omit hT hground in
theorem downBackLoop_goToMax : DownBackLoop (σ := σ) Walk.goToMax Walk.previous :=
  fun fuel c => by rw [Walk.goToMax]

omit hT hground in
theorem previous_of_climbBack {r : Bool × Walk σ} (hc : c.stack.size ≠ 0)
    (hr : Returns (Walk.climbBack · c) r) :
    Returns (Walk.previous · c) r := hr.step fun fuel => by rw [Walk.previous, if_neg hc]

theorem downBack (hm : T.mem w = true) : w ≠ [] → DownBack T db R Walk.followMax w ∧
    DownBack T db R Walk.goToMax w := by
  refine T.induct (P := fun w => w ≠ [] → DownBack T db R Walk.followMax w ∧
    DownBack T db R Walk.goToMax w) ?_ w hm
  intro w hm ih hw
  constructor
  · exact downBack_step hT hground downBackLoop_followMax (fun _ h => h) hw hm fun b hb =>
      ⟨(ih b hb (by simp)).1, (ih b hb (by simp)).1⟩
  · exact downBack_step hT hground downBackLoop_goToMax previous_of_climbBack hw hm fun b hb =>
      ⟨(ih b hb (by simp)).2, (ih b hb (by simp)).1⟩

/-! ### From one stop to the next -/

omit hT hground in
theorem climbBack_start (h : c.At db R []) : Returns (Walk.climbBack · c) (false, c) :=
  .of_succ fun fuel => by rw [Walk.climbBack, if_pos (by rw [h.stack.size]; rfl)]

/-- A climb back from `w` stops at the first stop to the left of the way to
`w`. -/
theorem climbBack_lands : ∀ {w : List Bool} {c : Walk σ}, c.At db R w → T.mem w = true →
    ∃ r, Returns (Walk.climbBack · c) r ∧ LandsBack T db R (T.backFrom w) r := by
  intro w
  induction w using List.reverseRecOn with
  | nil => exact fun {c} h _ => ⟨(false, c), climbBack_start h, rfl, h⟩
  | append_singleton u b ih =>
    intro c h hm
    have hmu := T.closed hm
    have hup := up_of_mem hT hground h hm
    by_cases hb : b = false ∨ T.mem (u ++ [false]) = false
    · obtain ⟨r, hr, hl⟩ := ih hup hmu
      refine ⟨r, climbBack_up hT hground h hm hb hr, ?_⟩
      have hfrom : T.backFrom (u ++ [b]) = T.backFrom u := by
        cases b with
        | false => exact T.backFrom_concat_false u
        | true =>
          rw [T.backFrom_concat_true, hb.resolve_left (by decide)]
          rfl
      rwa [hfrom]
    · simp only [not_or, Bool.not_eq_false] at hb
      obtain ⟨rfl, hml⟩ := hb
      have hleft := hup.left hT (hground _ hmu) hml
      rw [T.backFrom_concat_true, if_pos hml]
      rcases (downBack hT hground hml (by simp)).1 _ hleft with ⟨s, ss, c', hb, hret, hat,
        hfrom⟩ | ⟨hb, c₁, hat, hret⟩
      · rw [hb]
        exact ⟨(true, c'), climbBack_left hT hground h hm hml hret, rfl,
          hat, by rw [hfrom, T.backFrom_concat_false]; rfl⟩
      · obtain ⟨r, hr, hl⟩ := ih (up_of_mem hT hground hat hml) hmu
        rw [hb, List.nil_append]
        have hdown := hret _ (climbBack_up hT hground hat hml (Or.inl rfl) hr)
        exact ⟨r, climbBack_left hT hground h hm hml hdown, hl⟩

omit hground in
theorem isDeadEnd_startOn (h : c.At db R []) : c.isDeadEnd = !T.mem [true] := by
  have h0 : T.mem ([] ++ [false]) = false := T.no_zero
  rw [Walk.isDeadEnd, h.db, hT.isDeadEnd h.path grounded_nil, h0]
  simp

omit hground in
theorem previous_dead (h : c.At db R []) (hm : T.mem [true] = false) :
    Returns (Walk.previous · c) (false, c) :=
  .of_succ fun fuel => by
    rw [Walk.previous, if_pos (by rw [h.stack.size]; rfl), isDeadEnd_startOn hT h, hm]
    rfl

/-- `goToMax` from the start comes to the first stop. -/
theorem goToMax_lands (h : c.At db R []) : ∃ r, Returns (Walk.goToMax · c) r ∧
    LandsBack T db R T.stops r := by
  have hl : c.canGoLeft = false := (h.canGoLeft hT grounded_nil).trans T.no_zero
  have hr : c.canGoRight = T.mem [true] := h.canGoRight hT grounded_nil
  rw [T.stops_eq]
  by_cases hm : T.mem [true] = true
  · have hright : c.right.At db R [true] := h.right hT grounded_nil hm
    have hstep : ∀ r, Returns (Walk.goToMax · c.right) r → Returns (Walk.goToMax · c) r :=
      fun r hret =>
      hret.step fun fuel => by
        rw [Walk.goToMax, hr, hm, if_pos rfl, if_neg (by rw [hright.stack.count]; simp)]
    rw [if_pos hm]
    rcases (downBack hT hground hm (by simp)).2 _ hright with ⟨s, ss, c', hb, hret, hat,
      hfrom⟩ | ⟨hb, c₁, hat, hret⟩
    · rw [hb]
      refine ⟨_, hstep _ hret, rfl, hat, ?_⟩
      rw [hfrom, show T.backFrom [true] = [] from (T.backFrom_concat_true []).trans
        (by simp [T.no_zero])]
      simp
    · rw [hb]
      have hat' : c₁.up.At db R [] := up_of_mem (w := []) (b := true) hT hground hat hm
      exact ⟨_,
        hstep _ (hret _ (climbBack_up (w := []) hT hground hat hm (Or.inr T.no_zero)
        (climbBack_start hat'))), rfl, hat'⟩
  · have hm' : T.mem [true] = false := by simpa using hm
    rw [if_neg hm]
    refine ⟨(false, c), (previous_dead hT h hm').step fun fuel => ?_, rfl, h⟩
    rw [Walk.goToMax, hl, hr, hm', if_neg (by simp), if_neg (by simp)]

/-- `previous` from the start comes to the first stop. -/
theorem previous_lands_start (h : c.At db R []) : ∃ r, Returns (Walk.previous · c) r ∧
    LandsBack T db R T.stops r := by
  by_cases hm : T.mem [true] = true
  · obtain ⟨r, hr, hl⟩ := goToMax_lands hT hground h
    refine ⟨r, hr.step fun fuel => ?_, hl⟩
    rw [Walk.previous, if_pos (by rw [h.stack.size]; rfl), isDeadEnd_startOn hT h, hm,
      if_neg (by simp)]
  · rw [T.stops_eq, if_neg hm]
    exact ⟨(false, c), previous_dead hT h (by simpa using hm), rfl, h⟩

/-- `previous` from a stop comes to the next one to its left. -/
theorem previous_lands {s : List Bool} (hne : s ≠ []) (hs : T.mem s = true) (h : c.At db R s) :
    ∃ r, Returns (Walk.previous · c) r ∧ LandsBack T db R (T.backFrom s) r := by
  obtain ⟨r, hr, hl⟩ := climbBack_lands hT hground h hs
  exact ⟨r, previous_of_climbBack (h.size_ne_zero hne) hr, hl⟩

/-! ### All stops -/

section

variable {α : Type} [Encoded α] [LawfulEncoded α]

omit [PathBase σ] hT hground in
/-- The item read off the stack at a stop below its key. -/
theorem readItem_of_isPrefix {a : α} {s : List Bool} (h : c.At db R s) (hp : encode a <+: s)
    (h0 : height 0 s = 0) :
    ∃ c', Walk.readItem (true, c) = some (some a, c') ∧ c'.At db R s := by
  obtain ⟨post, rfl⟩ := hp
  have hrest : c.stack.reset.rest = encode a ++ post := by simp [Stack.rest, h.stack.bits]
  have hd := LawfulEncoded.decode_encode a hrest rfl
  refine ⟨{ c with stack := c.stack.reset.advance (encode a) }, by simp [Walk.readItem, hd], h.db,
    h.path, ?_, ?_⟩
  · simp [h.stack.bits]
  · rw [h0]
    simp [height_closes (LawfulEncoded.isCode a)]

/-- The item `a` is read off the stack at the stop `s`. -/
structure ItemAt (T : BitTree) (a : α) (s : List Bool) : Prop where
  mem : T.mem s = true
  ends : height 0 s = 0
  isPrefix : encode a <+: s

/-- Calls of `previous(stack, item)` from a place with the stops `ss` before it
give the items of their keys, and then come back to the start. -/
theorem previousItems_lands : ∀ {as : List α} {ss : List (List Bool)} {c : Walk σ},
    List.Forall₂ (ItemAt T) as ss →
    (∃ r, Returns (Walk.previous · c) r ∧ LandsBack T db R ss r) →
    ∃ c', Returns (Walk.previousItems · c) (as, c') ∧ c'.At db R []
  | [], [], c, _, ⟨(found, c'), hr, hl⟩ => by
    obtain ⟨rfl, hat⟩ : found = false ∧ c'.At db R [] := hl
    have hitem : Returns (fun fuel => Walk.previousItem (α := α) fuel c) (none, c') :=
      hr.bind_some rfl
    exact ⟨c', hitem.bind (g := fun p fuel => Walk.moreItems (Walk.previousItems fuel) p)
      ⟨0, fun _ _ => rfl⟩
      fun _ => rfl, hat⟩
  | a :: as, s :: ss, c, .cons ha has, ⟨(found, c'), hr, hl⟩ => by
    obtain ⟨rfl, hat, hfrom⟩ : found = true ∧ c'.At db R s ∧ T.backFrom s = ss := hl
    obtain ⟨c₁, hread, hat₁⟩ := readItem_of_isPrefix hat ha.isPrefix ha.ends
    have hitem : Returns (fun fuel => Walk.previousItem (α := α) fuel c) (some a, c₁) :=
      hr.bind_some hread
    have hne : s ≠ [] := by
      rintro rfl
      exact (LawfulEncoded.isCode a).ne_nil (List.prefix_nil.mp ha.isPrefix)
    obtain ⟨c₂, hrest, hat₂⟩ :=
      previousItems_lands has (hfrom ▸ previous_lands hT hground hne ha.mem hat₁)
    refine ⟨c₂, hitem.bind (g := fun p fuel => Walk.moreItems (Walk.previousItems fuel) p)
      ?_ fun _ => rfl, hat₂⟩
    exact hrest.map fun r => (a :: r.1, r.2)

omit [PathBase σ] [LawfulEncoded α] hT hground in
theorem exists_items_of_stops (hitem : ∀ s ∈ T.stops, ∃ a : α, encode a <+: s) :
    ∃ as : List α, List.Forall₂ (ItemAt T) as T.stops := by
  have hall : ∀ ss : List (List Bool), (∀ s ∈ ss, s ∈ T.stops) → ∃ as : List α,
    List.Forall₂ (ItemAt T) as ss := by
    intro ss
    induction ss with
    | nil => exact fun _ => ⟨[], .nil⟩
    | cons s ss ih =>
      intro hss
      have hs := hss s List.mem_cons_self
      have hstop := mem_stops.mp hs
      obtain ⟨a, ha⟩ := hitem s hs
      obtain ⟨as, has⟩ := ih fun s hs => hss s (List.mem_cons_of_mem _ hs)
      exact ⟨a :: as, .cons ⟨hstop.there, hstop.ends, ha⟩ has⟩
  exact hall T.stops fun _ hs => hs

/-- `max` is the item of the first stop. -/
theorem max_first {p : σ} {as : List α} (h : R (PathBase.copy p) [])
    (has : List.Forall₂ (ItemAt T) as T.stops) :
    Returns (fun fuel => Walk.max fuel db p) as.head? := by
  obtain ⟨⟨found, c⟩, hr, hl⟩ := goToMax_lands hT hground (at_start db h)
  generalize T.stops = ss at has hl
  cases has with
  | nil =>
    obtain ⟨rfl, -⟩ : found = false ∧ c.At db R [] := hl
    exact (hr.bind_some (r := (none, c)) rfl).map Prod.fst
  | cons ha _ =>
    obtain ⟨rfl, hat, -⟩ := hl
    obtain ⟨c₁, hread, -⟩ := readItem_of_isPrefix hat ha.isPrefix ha.ends
    exact (hr.bind_some hread).map Prod.fst

end

end

end BeeFish
