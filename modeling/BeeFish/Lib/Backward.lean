/-
# Going back through a tree

A walk that goes back prefers the right, and looks for the end of a code after
each step but one: when it comes up from the right and goes left, it goes on
at once. A code that ends with this step is passed, and the walk goes on below
it, where other codes may follow. It stops (`Stops`) where a code ends without
such a fork, and every code that ended on the way there ended with one.

So going back meets each code of the tree once, and in reverse, exactly if
below each of them there is one place to stop (`firsts_eq_reverse`): the code
itself where there is no fork, or one place below it.

Key definitions: `BitTree.Forks`, `BitTree.StopsUnder`, `BitTree.Stops`,
`BitTree.back`, `BitTree.backFrom`.
-/
import BeeFish.Lib.BitTree
import Mathlib.Data.List.Sort

namespace BitCode

/-- Codes come in the order of the walks that begin with them. -/
theorem lt_or_eq_of_isPrefix {j k s t : List Bool} (hj : IsCode j) (hk : IsCode k) (hjs : j <+: s)
    (hkt : k <+: t)
    (h : s < t) : j < k ∨ j = k := by
  rcases prefix_or_split j k with hp | hp | ⟨u, b, x, y, rfl, rfl⟩
  · exact Or.inr (hj.eq_of_isPrefix hk hp)
  · exact Or.inr (hk.eq_of_isPrefix hj hp).symm
  · obtain ⟨x', rfl⟩ := hjs
    obtain ⟨y', rfl⟩ := hkt
    cases b with
    | false => exact Or.inl (BitTree.lt_of_split u x y)
    | true =>
      have hlt := BitTree.lt_of_split u (y ++ y') (x ++ x')
      simp only [List.append_assoc, List.cons_append] at h
      exact absurd hlt (List.lt_asymm h)

end BitCode

open BitCode

namespace BitTree

/-! ### Where going back stops -/

/-- The way to `w` ends by going left, where there is also a way right. -/
def Forks (goes : List Bool → Prop) (w : List Bool) : Prop :=
  ∃ u, w = u ++ [false] ∧ goes (u ++ [true])

/-- Going back from `w` stops at `s`: a code ends there without a fork, and
the codes that ended on the way from `w` ended with one. -/
structure StopsUnder (goes : List Bool → Prop) (w s : List Bool) : Prop where
  there : goes s
  below : w <+: s
  ne : s ≠ w
  ends : height 0 s = 0
  single : ¬ Forks goes s
  passes : ∀ v, w <+: v → v ≠ w → v <+: s → v ≠ s → height 0 v = 0 → Forks goes v

/-- Going back from the start stops at `s`. -/
def Stops (goes : List Bool → Prop) (s : List Bool) : Prop := StopsUnder goes [] s

variable (T : BitTree)

/-- The stops under `w`, at most `n` bits away, from right to left. -/
def backIn : ℕ → List Bool → List (List Bool)
  | 0, _ => []
  | n + 1, w =>
    if T.mem (w ++ [true]) then
      backIn n (w ++ [true]) ++ if T.mem (w ++ [false]) then backIn n (w ++ [false]) else []
    else if T.mem (w ++ [false]) then
      if height 0 (w ++ [false]) = 0 then [w ++ [false]] else backIn n (w ++ [false])
    else []

/-- The stops under `w`, from right to left. -/
def back (w : List Bool) : List (List Bool) := T.backIn (T.bound - w.length) w

theorem back_eq (w : List Bool) :
    T.back w =
      if T.mem (w ++ [true]) then
        T.back (w ++ [true]) ++ if T.mem (w ++ [false]) then T.back (w ++ [false]) else []
      else if T.mem (w ++ [false]) then
        if height 0 (w ++ [false]) = 0 then [w ++ [false]] else T.back (w ++ [false])
      else [] := by
  by_cases hw : w.length < T.bound
  · obtain ⟨n, hn⟩ : ∃ n, T.bound - w.length = n + 1 := ⟨T.bound - w.length - 1, by omega⟩
    have hb : ∀ b : Bool, T.bound - (w ++ [b]).length = n := fun b => by
      simp only [List.length_append, List.length_singleton]
      omega
    simp only [back, hb, hn, backIn]
  · have hb : ∀ b : Bool, T.mem (w ++ [b]) = false := fun b => by
      by_contra h
      have h1 := T.le_bound (w := w ++ [b]) (by simpa using h)
      simp only [List.length_append, List.length_singleton] at h1
      omega
    have hn : T.bound - w.length = 0 := by omega
    simp [back, hn, backIn, hb]

/-- The stops to the left of the way to a position, given backwards. -/
def backFromRev : List Bool → List (List Bool)
  | [] => []
  | true :: r =>
    (if T.mem (r.reverse ++ [false]) then T.back (r.reverse ++ [false]) else []) ++ backFromRev r
  | false :: r => backFromRev r

/-- The stops to the left of the way to `w`. -/
def backFrom (w : List Bool) : List (List Bool) := T.backFromRev w.reverse

@[simp] theorem backFrom_nil : T.backFrom [] = [] := rfl

@[simp] theorem backFrom_concat_false (w : List Bool) :
    T.backFrom (w ++ [false]) = T.backFrom w := by
  simp [backFrom, backFromRev]

@[simp] theorem backFrom_concat_true (w : List Bool) : T.backFrom (w ++ [true]) =
    (if T.mem (w ++ [false]) then T.back (w ++ [false]) else []) ++ T.backFrom w := by
  simp [backFrom, backFromRev]

variable {T}

theorem forks_concat {goes : List Bool → Prop} {w : List Bool} : Forks goes (w ++ [false]) ↔
    goes (w ++ [true]) := by
  constructor
  · rintro ⟨u, hu, hm⟩
    rwa [(List.append_inj' hu rfl).1]
  · exact fun hm => ⟨w, rfl, hm⟩

theorem height_concat_true_ne (w : List Bool) : height 0 (w ++ [true]) ≠ 0 := by
  rw [height_append]
  exact (Nat.succ_pos _).ne'

theorem prefix_child_of_ne {u w : List Bool} (h : w <+: u) (hne : u ≠ w) : ∃ b, w ++ [b] <+: u := by
  obtain ⟨t, rfl⟩ := h
  cases t with
  | nil => simp at hne
  | cons b t => exact ⟨b, t, by simp⟩

/-- Below a bit where no code ends, or only one with a fork, the stops are
those of the walk that came there. -/
theorem stopsUnder_concat {goes : List Bool → Prop} {w s : List Bool} {b : Bool}
    (hp : w ++ [b] <+: s) (hs : s ≠ w ++ [b])
    (hb : height 0 (w ++ [b]) = 0 → Forks goes (w ++ [b])) : StopsUnder goes (w ++ [b]) s ↔
      StopsUnder goes w s := by
  have hw : w <+: w ++ [b] := List.prefix_append w [b]
  constructor
  · intro h
    refine ⟨h.there, hw.trans hp, ?_, h.ends, h.single, fun v hv hvw hvs hne h0 => ?_⟩
    · rintro rfl
      exact not_concat_isPrefix hp
    · by_cases hvb : v = w ++ [b]
      · exact hvb ▸ hb (hvb ▸ h0)
      · refine h.passes v ?_ hvb hvs hne h0
        obtain ⟨c, hc⟩ := prefix_child_of_ne hv hvw
        obtain rfl : c = b := by
          have hlen := List.prefix_of_prefix_length_le (hc.trans hvs) hp (by simp)
          simpa using hlen.eq_of_length (by simp)
        exact hc
  · intro h
    refine ⟨h.there, hp, hs, h.ends, h.single, fun v hv _ hvs hne h0 =>
      h.passes v (hw.trans hv) ?_ hvs hne h0⟩
    rintro rfl
    exact not_concat_isPrefix hv

/-- `back` lists the stops. -/
theorem mem_back {w s : List Bool} (hw : T.mem w = true) : s ∈ T.back w ↔
    StopsUnder (T.mem · = true) w s := by
  refine T.induct (P := fun w => s ∈ T.back w ↔ StopsUnder (T.mem · = true) w s) ?_ w hw
  intro w _ ih
  -- the stops under one of the children
  have hchild : ∀ b, (height 0 (w ++ [b]) = 0 → Forks (T.mem · = true) (w ++ [b])) →
      (s ∈ (if T.mem (w ++ [b]) then T.back (w ++ [b]) else []) ↔ w ++ [b] <+: s ∧
        StopsUnder (T.mem · = true) w s) := by
    intro b hb
    by_cases hm : T.mem (w ++ [b]) = true
    · rw [if_pos hm, ih b hm]
      constructor
      · exact fun h => ⟨h.below, (stopsUnder_concat h.below h.ne hb).mp h⟩
      · rintro ⟨hp, h⟩
        refine (stopsUnder_concat hp ?_ hb).mpr h
        rintro rfl
        exact h.single (hb h.ends)
    · rw [if_neg hm]
      refine iff_of_false List.not_mem_nil ?_
      rintro ⟨hp, h⟩
      exact hm (T.mem_of_isPrefix hp h.there)
  have hsplit : StopsUnder (T.mem · = true) w s ↔
    (w ++ [true] <+: s ∧ StopsUnder (T.mem · = true) w s) ∨
      (w ++ [false] <+: s ∧ StopsUnder (T.mem · = true) w s) := by
    constructor
    · intro h
      obtain ⟨b, hb⟩ := prefix_child_of_ne h.below h.ne
      cases b with
      | true => exact Or.inl ⟨hb, h⟩
      | false => exact Or.inr ⟨hb, h⟩
    · rintro (⟨-, h⟩ | ⟨-, h⟩) <;> exact h
  have htrue := hchild true fun h0 => absurd h0 (height_concat_true_ne w)
  rw [back_eq, hsplit, ← htrue]
  by_cases hr : T.mem (w ++ [true]) = true
  · rw [if_pos hr, List.mem_append, if_pos hr, hchild false fun _ => forks_concat.mpr hr]
  · rw [if_neg hr, if_neg hr]
    simp only [List.not_mem_nil, false_or]
    by_cases h0 : height 0 (w ++ [false]) = 0
    · by_cases hl : T.mem (w ++ [false]) = true
      · rw [if_pos hl, if_pos h0, List.mem_singleton]
        constructor
        · rintro rfl
          refine ⟨List.prefix_rfl, hl, List.prefix_append _ _, by simp, h0, forks_concat.not.mpr hr,
            fun v hv hne hvs hvs' _ => ?_⟩
          obtain ⟨b, hb⟩ := prefix_child_of_ne hv hne
          exact absurd (hvs.eq_of_length_le (by simpa using hb.length_le)) hvs'
        · rintro ⟨hp, h⟩
          by_contra hne
          exact hr (forks_concat.mp (h.passes _ (List.prefix_append _ _) (by simp) hp
            (Ne.symm hne) h0))
      · rw [if_neg hl]
        refine iff_of_false List.not_mem_nil ?_
        rintro ⟨hp, h⟩
        exact hl (T.mem_of_isPrefix hp h.there)
    · rw [← hchild false fun h => absurd h h0]
      simp only [if_neg h0]

theorem sorted_back {w : List Bool} (hw : T.mem w = true) : (T.back w).Pairwise (· > ·) := by
  refine T.induct (P := fun w => (T.back w).Pairwise (· > ·)) ?_ w hw
  intro w _ ih
  have hsub : ∀ b s, T.mem (w ++ [b]) = true → s ∈ T.back (w ++ [b]) → ∃ t, s = w ++ b :: t := by
    intro b s hb hs
    obtain ⟨t, rfl⟩ := ((mem_back hb).mp hs).below
    exact ⟨t, by simp⟩
  rw [back_eq]
  split_ifs with hr hl hl h0
  · rw [List.pairwise_append]
    refine ⟨ih true hr, ih false hl, fun s hs t ht => ?_⟩
    obtain ⟨x, rfl⟩ := hsub true s hr hs
    obtain ⟨y, rfl⟩ := hsub false t hl ht
    exact lt_of_split w y x
  · simpa using ih true hr
  · exact List.pairwise_singleton _ _
  · exact ih false hl
  · exact List.Pairwise.nil

/-- The stops of the tree, from right to left. -/
def stops (T : BitTree) : List (List Bool) := T.back []

theorem mem_stops {s : List Bool} : s ∈ T.stops ↔ Stops (T.mem · = true) s := mem_back T.root

theorem stops_eq (T : BitTree) : T.stops = if T.mem [true] then T.back [true] else [] := by
  have h0 : T.mem ([] ++ [false]) = false := T.no_zero
  rw [stops, T.back_eq, h0]
  simp

/-! ### The codes that the stops begin with -/

/-- Each stop begins with one of the keys. -/
theorem exists_key_of_stop (hT : ∀ w, T.mem w = true → Grounded w) {s : List Bool}
    (hs : s ∈ T.stops) :
    ∃ k ∈ T.keys, k <+: s := by
  have h := mem_stops.mp hs
  obtain ⟨k, hk, hcode⟩ := (hT s h.there).exists_code h.ends h.ne
  exact ⟨k, T.mem_keys.mpr ⟨hcode, T.mem_of_isPrefix hk h.there⟩, hk⟩

open Classical in
/-- The code that a walk begins with. -/
noncomputable def firstCode (s : List Bool) : List Bool :=
  if h : ∃ k, k <+: s ∧ IsCode k then h.choose else []

theorem firstCode_eq {k s : List Bool} (hk : IsCode k) (hp : k <+: s) : firstCode s = k := by
  have h : ∃ k, k <+: s ∧ IsCode k := ⟨k, hp, hk⟩
  rw [firstCode, dif_pos h]
  obtain ⟨hp', hk'⟩ := h.choose_spec
  rcases List.prefix_or_prefix_of_prefix hp' hp with hle | hle
  · exact Closes.eq_of_isPrefix hk' hk hle
  · exact (Closes.eq_of_isPrefix hk hk' hle).symm

theorem eq_map_firstCode {ks ss : List (List Bool)}
    (h : List.Forall₂ (fun k s => IsCode k ∧ k <+: s) ks ss) :
    ks = ss.map firstCode := by
  induction h with
  | nil => rfl
  | cons hk _ ih => rw [List.map_cons, firstCode_eq hk.1 hk.2, ← ih]

/-- Going back meets the keys once each, and in reverse, if and only if there
is one stop below each of them. -/
theorem firsts_eq_reverse (hT : ∀ w, T.mem w = true → Grounded w) {firsts : List (List Bool)}
    (h : List.Forall₂ (fun k s => IsCode k ∧ k <+: s) firsts T.stops) :
    firsts = T.keys.reverse ↔ ∀ k ∈ T.keys, ∃! s, Stops (T.mem · = true) s ∧ k <+: s := by
  rw [eq_map_firstCode h]
  have hfirst : ∀ s ∈ T.stops, firstCode s ∈ T.keys ∧ firstCode s <+: s := fun s hs => by
    obtain ⟨k, hk, hp⟩ := exists_key_of_stop hT hs
    rw [firstCode_eq (T.mem_keys.mp hk).1 hp]
    exact ⟨hk, hp⟩
  have hkey : ∀ k ∈ T.keys, ∀ s, k <+: s → firstCode s = k :=
    fun k hk s hp => firstCode_eq (T.mem_keys.mp hk).1 hp
  have hrev : T.keys.reverse.Pairwise (· > ·) := List.pairwise_reverse.mpr T.sorted_keys
  have hstops : T.stops.Pairwise (· > ·) := sorted_back T.root
  constructor
  · intro heq k hk
    obtain ⟨s, hs, rfl⟩ := List.mem_map.mp (heq ▸ List.mem_reverse.mpr hk)
    refine ⟨s, ⟨mem_stops.mp hs, (hfirst s hs).2⟩, fun s' ⟨hs', hp'⟩ => ?_⟩
    have hnodup : (T.stops.map firstCode).Nodup := by
      rw [heq]
      apply List.nodup_reverse.mpr
      refine T.sorted_keys.imp ?_
      rintro j _ hlt rfl
      exact List.lt_irrefl j hlt
    exact List.inj_on_of_nodup_map hnodup (mem_stops.mpr hs') hs (hkey _ hk _ hp')
  · intro hone
    have hsorted : (T.stops.map firstCode).Pairwise (· > ·) := by
      rw [List.pairwise_map]
      refine hstops.imp_of_mem fun {s t} hs ht hlt => ?_
      obtain ⟨hfs, hps⟩ := hfirst s hs
      obtain ⟨hft, hpt⟩ := hfirst t ht
      rcases lt_or_eq_of_isPrefix (T.mem_keys.mp hft).1 (T.mem_keys.mp hfs).1 hpt hps
        hlt with hf | hf
      · exact hf
      · have hst := (hone _ hfs).unique ⟨mem_stops.mp hs, hps⟩ ⟨mem_stops.mp ht, hf ▸ hpt⟩
        exact absurd (hst ▸ hlt) (List.lt_irrefl _)
    apply hsorted.eq_of_mem_iff hrev
    intro k
    rw [List.mem_map, List.mem_reverse]
    constructor
    · rintro ⟨s, hs, rfl⟩
      exact (hfirst s hs).1
    · intro hk
      obtain ⟨s, ⟨hs, hp⟩, -⟩ := hone k hk
      exact ⟨s, mem_stops.mpr hs, hkey k hk s hp⟩

end BitTree
