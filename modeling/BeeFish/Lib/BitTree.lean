/-
# Finite binary trees and the codes they hold

A `BitTree` is a finite prefix-closed set of bit strings: the positions of a
binary tree. `below w` lists the codes at and under the position `w` from
left to right, not going past a code; it is what a depth-first walk that
turns back at every code meets. `keys`, the codes below the root, holds every
code of the tree once (`mem_keys`), in lexicographic order (`sorted_keys`),
and what comes after the code `k` in it is `later k`, the codes to the right
of the way to `k` (`keys_split`). The keys of `inter`, `union` and `diff` are
the intersection, the union and the difference of the keys.

Key definitions: `BitTree`, `BitTree.below`, `BitTree.keys`, `BitTree.later`,
`BitTree.inter`, `BitTree.union`, `BitTree.diff`.
-/
import BeeFish.Lib.Code
import Mathlib.Data.List.Lex

open BitCode

/-- A finite prefix-closed set of bit strings; no string of it starts with a
zero. -/
structure BitTree where
  mem : List Bool → Bool
  bound : ℕ
  root : mem [] = true
  closed : ∀ {w b}, mem (w ++ [b]) = true → mem w = true
  le_bound : ∀ {w}, mem w = true → w.length ≤ bound
  no_zero : mem [false] = false

namespace BitTree

variable (T : BitTree)

theorem mem_of_append {w : List Bool} : ∀ {v : List Bool}, T.mem (w ++ v) = true →
    T.mem w = true := by
  intro v
  induction v using List.reverseRecOn with
  | nil => intro h; simpa using h
  | append_singleton v b ih =>
    intro h
    rw [← List.append_assoc] at h
    exact ih (T.closed h)

theorem mem_of_isPrefix {u w : List Bool} (hp : u <+: w) (hw : T.mem w = true) :
    T.mem u = true := by
  obtain ⟨v, rfl⟩ := hp
  exact T.mem_of_append hw

/-- Induction from the leaves of the tree to its root. -/
theorem induct {P : List Bool → Prop}
    (h : ∀ w, T.mem w = true → (∀ b, T.mem (w ++ [b]) = true → P (w ++ [b])) → P w)
    (w : List Bool) (hw : T.mem w = true) : P w := by
  have key : ∀ (n : ℕ) (w : List Bool), T.mem w = true → T.bound - w.length ≤ n → P w := by
    intro n
    induction n with
    | zero =>
      intro w hw hn
      refine h w hw fun b hb => ?_
      have h1 := T.le_bound hb
      simp only [List.length_append, List.length_singleton] at h1
      omega
    | succ n ih =>
      intro w hw hn
      refine h w hw fun b hb => ih _ hb ?_
      simp only [List.length_append, List.length_singleton]
      omega
  exact key _ w hw le_rfl

/-- The codes at and under `w`, at most `n` bits away, from left to right. -/
def belowIn : ℕ → List Bool → List (List Bool)
  | 0, _ => []
  | n + 1, w =>
    (if T.mem (w ++ [false]) then
      if height 0 (w ++ [false]) = 0 then [w ++ [false]] else belowIn n (w ++ [false])
    else []) ++
    (if T.mem (w ++ [true]) then belowIn n (w ++ [true]) else [])

/-- The codes under `w`, from left to right. -/
def below (w : List Bool) : List (List Bool) := T.belowIn (T.bound - w.length) w

/-- The codes of the tree, from left to right. -/
def keys : List (List Bool) := T.below []

theorem below_eq (w : List Bool) :
    T.below w =
      (if T.mem (w ++ [false]) then
        if height 0 (w ++ [false]) = 0 then [w ++ [false]] else T.below (w ++ [false])
      else []) ++
      (if T.mem (w ++ [true]) then T.below (w ++ [true]) else []) := by
  by_cases hw : w.length < T.bound
  · obtain ⟨n, hn⟩ : ∃ n, T.bound - w.length = n + 1 := ⟨T.bound - w.length - 1, by omega⟩
    have hb : ∀ b : Bool, T.bound - (w ++ [b]).length = n := fun b => by
      simp only [List.length_append, List.length_singleton]
      omega
    simp only [below, hb, hn, belowIn]
  · have hb : ∀ b : Bool, T.mem (w ++ [b]) = false := fun b => by
      by_contra h
      have h1 := T.le_bound (w := w ++ [b]) (by simpa using h)
      simp only [List.length_append, List.length_singleton] at h1
      omega
    have hn : T.bound - w.length = 0 := by omega
    simp [below, hn, belowIn, hb]

/-! ### What `below` lists -/

theorem height_concat_zero {w : List Bool} (hs : Stays 0 w) (hne : w ≠ []) :
    height 0 (w ++ [false]) = 0 ↔ IsCode (w ++ [false]) := by
  have hp := height_pos_of_stays w 0 hs (Or.inr hne)
  constructor
  · intro h
    rw [height_append, height_false, height_nil] at h
    exact closes_append_false hs (by omega)
  · exact height_closes

theorem stays_concat_false {w : List Bool} (hs : Stays 0 w) (h : height 0 (w ++ [false]) ≠ 0) :
    Stays 0 (w ++ [false]) := by
  rw [height_append, height_false, height_nil] at h
  exact stays_append_false hs (by omega)

theorem ne_nil_of_mem_false {w : List Bool} (h : T.mem (w ++ [false]) = true) : w ≠ [] := by
  rintro rfl
  rw [List.nil_append, T.no_zero] at h
  cases h

theorem mem_below_aux {w : List Bool} (hw : T.mem w = true) :
    Stays 0 w → ∀ k, k ∈ T.below w ↔ IsCode k ∧ T.mem k = true ∧ w <+: k := by
  refine T.induct (P := fun w => Stays 0 w → ∀ k, k ∈ T.below w ↔ IsCode k ∧
    T.mem k = true ∧ w <+: k)
    ?_ w hw
  intro w _ ih hs k
  -- a code under `w` is under one of the two children
  have hsplit : IsCode k ∧ T.mem k = true ∧ w <+: k ↔
      (IsCode k ∧ T.mem k = true ∧ w ++ [false] <+: k) ∨
        (IsCode k ∧ T.mem k = true ∧ w ++ [true] <+: k) := by
    constructor
    · rintro ⟨hc, hm, t, rfl⟩
      match t with
      | [] => exact absurd (by simpa using hs) (not_stays_closes _ 0 hc)
      | false :: t => exact Or.inl ⟨hc, hm, t, by simp⟩
      | true :: t => exact Or.inr ⟨hc, hm, t, by simp⟩
    · rintro (⟨hc, hm, hp⟩ | ⟨hc, hm, hp⟩)
      · exact ⟨hc, hm, (List.prefix_append w _).trans hp⟩
      · exact ⟨hc, hm, (List.prefix_append w _).trans hp⟩
  rw [below_eq, List.mem_append, hsplit]
  apply or_congr
  · by_cases hl : T.mem (w ++ [false]) = true
    · have hne := T.ne_nil_of_mem_false hl
      rw [if_pos hl]
      by_cases h0 : height 0 (w ++ [false]) = 0
      · have hc := (height_concat_zero hs hne).mp h0
        rw [if_pos h0, List.mem_singleton]
        constructor
        · rintro rfl
          exact ⟨hc, hl, List.prefix_rfl⟩
        · rintro ⟨hk, -, hp⟩
          exact (hc.eq_of_isPrefix hk hp).symm
      · rw [if_neg h0]
        exact ih false hl (stays_concat_false hs h0) k
    · rw [if_neg hl]
      simp only [List.not_mem_nil, false_iff, not_and]
      exact fun _ hm hp => hl (T.mem_of_isPrefix hp hm)
  · by_cases hr : T.mem (w ++ [true]) = true
    · rw [if_pos hr]
      exact ih true hr (stays_append_true hs) k
    · rw [if_neg hr]
      simp only [List.not_mem_nil, false_iff, not_and]
      exact fun _ hm hp => hr (T.mem_of_isPrefix hp hm)

theorem mem_below {w k : List Bool} (hw : T.mem w = true) (hs : Stays 0 w) :
    k ∈ T.below w ↔ IsCode k ∧ T.mem k = true ∧ w <+: k := T.mem_below_aux hw hs k

/-- `keys` holds the codes of the tree. -/
theorem mem_keys {k : List Bool} : k ∈ T.keys ↔ IsCode k ∧ T.mem k = true := by
  rw [keys, T.mem_below T.root trivial]
  simp

/-- What goes left comes before what goes right. -/
theorem lt_of_split (w x y : List Bool) : w ++ false :: x < w ++ true :: y :=
  List.Lex.append_left (· < ·) (List.Lex.rel (by decide)) w

theorem sorted_below {w : List Bool} (hw : T.mem w = true) : Stays 0 w →
    (T.below w).Pairwise (· < ·) := by
  refine T.induct (P := fun w => Stays 0 w → (T.below w).Pairwise (· < ·)) ?_ w hw
  intro w hw ih hs
  have hsub : ∀ b k, k ∈ (if T.mem (w ++ [b]) then T.below (w ++ [b]) else []) →
    Stays 0 (w ++ [b]) →
      ∃ t, k = w ++ b :: t := by
    intro b k hk hsb
    by_cases hb : T.mem (w ++ [b]) = true
    · rw [if_pos hb, T.mem_below hb hsb] at hk
      obtain ⟨t, rfl⟩ := hk.2.2
      exact ⟨t, by simp⟩
    · simp [hb] at hk
  rw [below_eq, List.pairwise_append]
  refine ⟨?_, ?_, ?_⟩
  · split_ifs with hl h0
    · exact List.pairwise_singleton _ _
    · exact ih false hl (stays_concat_false hs h0)
    · exact List.Pairwise.nil
  · split_ifs with hr
    · exact ih true hr (stays_append_true hs)
    · exact List.Pairwise.nil
  · intro a ha b hb
    obtain ⟨y, rfl⟩ := hsub true b hb (stays_append_true hs)
    have hx : ∃ x, a = w ++ false :: x := by
      by_cases hl : T.mem (w ++ [false]) = true
      · by_cases h0 : height 0 (w ++ [false]) = 0
        · rw [if_pos hl, if_pos h0, List.mem_singleton] at ha
          exact ⟨[], ha⟩
        · rw [if_pos hl, if_neg h0] at ha
          refine hsub false a ?_ (stays_concat_false hs h0)
          rwa [if_pos hl]
      · simp [hl] at ha
    obtain ⟨x, rfl⟩ := hx
    exact lt_of_split w x y

/-- `keys` lists the codes in lexicographic order. -/
theorem sorted_keys : T.keys.Pairwise (· < ·) := T.sorted_below T.root trivial

/-! ### What comes after a position -/

/-- The codes to the right of the way to a position, given backwards. -/
def laterRev : List Bool → List (List Bool)
  | [] => []
  | true :: r => laterRev r
  | false :: r =>
    (if T.mem (r.reverse ++ [true]) then T.below (r.reverse ++ [true]) else []) ++ laterRev r

/-- The codes to the right of the way to `w`. -/
def later (w : List Bool) : List (List Bool) := T.laterRev w.reverse

@[simp] theorem later_nil : T.later [] = [] := rfl

@[simp] theorem later_concat_true (w : List Bool) : T.later (w ++ [true]) = T.later w := by
  simp [later, laterRev]

@[simp] theorem later_concat_false (w : List Bool) : T.later (w ++ [false]) =
    (if T.mem (w ++ [true]) then T.below (w ++ [true]) else []) ++ T.later w := by
  simp [later, laterRev]

theorem below_split {w : List Bool} (hw : T.mem w = true) : ∀ k ∈ T.below w,
    ∃ pre post, T.below w = pre ++ k :: post ∧ T.later k = post ++ T.later w := by
  refine T.induct (P := fun w => ∀ k ∈ T.below w,
    ∃ pre post, T.below w = pre ++ k :: post ∧ T.later k = post ++ T.later w) ?_ w hw
  intro w _ ih k hk
  rw [below_eq] at hk ⊢
  rcases List.mem_append.mp hk with hk | hk
  · by_cases hl : T.mem (w ++ [false]) = true
    · rw [if_pos hl] at hk ⊢
      by_cases h0 : height 0 (w ++ [false]) = 0
      · rw [if_pos h0, List.mem_singleton] at hk
        subst hk
        rw [if_pos h0]
        exact ⟨[], _, rfl, T.later_concat_false w⟩
      · rw [if_neg h0] at hk ⊢
        obtain ⟨pre, post, h1, h2⟩ := ih false hl k hk
        refine ⟨pre, post ++ (if T.mem (w ++ [true]) then T.below (w ++ [true]) else []), ?_, ?_⟩
        · rw [h1]
          simp
        · rw [h2, later_concat_false, List.append_assoc]
    · simp [hl] at hk
  · by_cases hr : T.mem (w ++ [true]) = true
    · rw [if_pos hr] at hk
      obtain ⟨pre, post, h1, h2⟩ := ih true hr k hk
      rw [if_pos hr, h1, ← List.append_assoc]
      exact ⟨_, post, rfl, by rw [h2, later_concat_true]⟩
    · simp [hr] at hk

/-- After the code `k` come the codes to the right of the way to it. -/
theorem keys_split {k : List Bool} (hk : k ∈ T.keys) : ∃ pre, T.keys = pre ++ k :: T.later k := by
  obtain ⟨pre, post, h1, h2⟩ := T.below_split T.root k hk
  rw [later_nil, List.append_nil] at h2
  exact ⟨pre, by rw [h2]; exact h1⟩

/-- `k` goes right where the way to `w` goes left. -/
def RightOf (w k : List Bool) : Prop := ∃ u x y, w = u ++ false :: x ∧ k = u ++ true :: y

theorem rightOf_concat {w k : List Bool} {b : Bool} :
    RightOf (w ++ [b]) k ↔ b = false ∧ w ++ [true] <+: k ∨ RightOf w k := by
  constructor
  · rintro ⟨u, x, y, hw, rfl⟩
    rcases List.eq_nil_or_concat x with rfl | ⟨x, c, rfl⟩
    · obtain ⟨rfl, hb⟩ := List.append_inj' hw rfl
      exact Or.inl ⟨by simpa using hb, y, by simp⟩
    · rw [List.concat_eq_append, ← List.cons_append, ← List.append_assoc] at hw
      exact Or.inr ⟨u, x, y, (List.append_inj' hw rfl).1, rfl⟩
  · rintro (⟨rfl, y, rfl⟩ | ⟨u, x, y, rfl, rfl⟩)
    · exact ⟨w, [], y, rfl, by simp⟩
    · exact ⟨u, x ++ [b], y, by simp, rfl⟩

theorem RightOf.append {w k : List Bool} (h : RightOf w k) (t x y : List Bool) :
    RightOf (t ++ w ++ x) (t ++ k ++ y) := by
  obtain ⟨u, v, z, rfl, rfl⟩ := h
  exact ⟨t ++ u, v ++ x, z ++ y, by simp, by simp⟩

theorem RightOf.lt {w k : List Bool} (h : RightOf w k) : w < k := by
  obtain ⟨u, x, y, rfl, rfl⟩ := h
  exact lt_of_split u x y

instance : Std.Irrefl (α := Bool) (· < ·) := ⟨Bool.lt_irrefl⟩

instance : Std.Asymm (α := Bool) (· < ·) := ⟨fun _ _ => Bool.lt_asymm⟩

/-- A code that comes after another one goes right of it. -/
theorem rightOf_of_lt {j k : List Bool} (hj : IsCode j) (hk : IsCode k) (h : j < k) :
    RightOf j k := by
  rcases prefix_or_split j k with hp | hp | ⟨u, b, x, y, rfl, rfl⟩
  · exact absurd h (hj.eq_of_isPrefix hk hp ▸ List.lt_irrefl _)
  · exact absurd h (hk.eq_of_isPrefix hj hp ▸ List.lt_irrefl _)
  · cases b with
    | false => exact ⟨u, x, y, rfl, rfl⟩
    | true => exact absurd (lt_of_split u y x) (List.lt_asymm h)

/-- `later` lists the codes to the right of a way. -/
theorem mem_later {w k : List Bool} :
    (Stays 0 w ∨ IsCode w) → (k ∈ T.later w ↔ k ∈ T.keys ∧ RightOf w k) := by
  induction w using List.reverseRecOn with
  | nil =>
    intro _
    simp only [later_nil, List.not_mem_nil, false_iff, not_and]
    rintro - ⟨u, x, y, hw, -⟩
    simp at hw
  | append_singleton w b ih =>
    intro hw
    have hs : Stays 0 w := by
      rcases hw with hw | hw
      · exact ((stays_append w [b] 0).mp hw).1
      · exact hw.stays_of_isPrefix (List.prefix_append w [b]) fun he => by
          simpa using congrArg List.length he
    rw [rightOf_concat]
    cases b with
    | true => simp [ih (Or.inl hs)]
    | false =>
      rw [later_concat_false, List.mem_append, ih (Or.inl hs), and_or_left]
      refine or_congr ?_ Iff.rfl
      by_cases hm : T.mem (w ++ [true]) = true
      · rw [if_pos hm, T.mem_below hm (stays_append_true hs), mem_keys]
        simp [and_assoc]
      · rw [if_neg hm, mem_keys]
        simp only [List.not_mem_nil, false_iff, true_and, not_and]
        exact fun hk hp => hm (T.mem_of_isPrefix hp hk.2)

theorem sorted_later {w : List Bool} : (Stays 0 w ∨ IsCode w) → (T.later w).Pairwise (· < ·) := by
  induction w using List.reverseRecOn with
  | nil => exact fun _ => List.Pairwise.nil
  | append_singleton w b ih =>
    intro hw
    have hs : Stays 0 w := by
      rcases hw with hw | hw
      · exact ((stays_append w [b] 0).mp hw).1
      · exact hw.stays_of_isPrefix (List.prefix_append w [b]) fun he => by
          simpa using congrArg List.length he
    cases b with
    | true =>
      rw [later_concat_true]
      exact ih (Or.inl hs)
    | false =>
      rw [later_concat_false, List.pairwise_append]
      refine ⟨?_, ih (Or.inl hs), ?_⟩
      · split_ifs with hm
        · exact T.sorted_below hm (stays_append_true hs)
        · exact List.Pairwise.nil
      · intro j hj k hk
        have hright := ((T.mem_later (Or.inl hs)).mp hk).2
        by_cases hm : T.mem (w ++ [true]) = true
        · rw [if_pos hm, T.mem_below hm (stays_append_true hs)] at hj
          obtain ⟨y, rfl⟩ := hj.2.2
          obtain ⟨u, x, z, rfl, rfl⟩ := hright
          simpa using lt_of_split u (x ++ true :: y) z
        · simp [hm] at hj

/-! ### Trees of sets -/

variable {T} (A B : BitTree)

/-- The tree of the root alone. -/
def leaf : BitTree where
  mem w := w == []
  bound := 0
  root := rfl
  closed {w b} h := by simp at h
  le_bound {w} h := by simp_all
  no_zero := rfl

/-- The strings in both trees. -/
def inter : BitTree where
  mem w := A.mem w && B.mem w
  bound := A.bound
  root := by rw [A.root, B.root]; rfl
  closed {w b} h := by
    simp only [Bool.and_eq_true] at h ⊢
    exact ⟨A.closed h.1, B.closed h.2⟩
  le_bound {w} h := A.le_bound ((Bool.and_eq_true _ _).mp h).1
  no_zero := by rw [A.no_zero]; rfl

/-- The strings in either tree. -/
def union : BitTree where
  mem w := A.mem w || B.mem w
  bound := max A.bound B.bound
  root := by rw [A.root]; rfl
  closed {w b} h := by
    simp only [Bool.or_eq_true] at h ⊢
    exact h.imp A.closed B.closed
  le_bound {w} h := by
    simp only [Bool.or_eq_true] at h
    rcases h with h | h
    · exact le_trans (A.le_bound h) (le_max_left _ _)
    · exact le_trans (B.le_bound h) (le_max_right _ _)
  no_zero := by rw [A.no_zero, B.no_zero]; rfl

/-- The strings of `A` that do not begin with a code of `B`. -/
def diff : BitTree where
  mem w := A.mem w && !w.inits.any fun u => decide (IsCode u) && B.mem u
  bound := A.bound
  root := by
    have h0 : ¬ IsCode [] := id
    simp [A.root, h0]
  closed {w b} h := by
    simp only [Bool.and_eq_true, Bool.not_eq_true', List.any_eq_false, List.mem_inits,
      decide_eq_true_eq] at h ⊢
    exact ⟨A.closed h.1, fun u hu => h.2 u (hu.trans (List.prefix_append w [b]))⟩
  le_bound {w} h := A.le_bound ((Bool.and_eq_true _ _).mp h).1
  no_zero := by rw [A.no_zero]; rfl

variable {A B}

theorem keys_leaf : leaf.keys = [] := by
  apply List.eq_nil_iff_forall_not_mem.mpr
  intro k hk
  obtain ⟨hc, hm⟩ := leaf.mem_keys.mp hk
  exact hc.ne_nil (by simpa [leaf] using hm)

theorem mem_keys_inter {k : List Bool} : k ∈ (A.inter B).keys ↔ k ∈ A.keys ∧ k ∈ B.keys := by
  simp only [mem_keys, inter, Bool.and_eq_true]
  exact and_and_left

theorem mem_keys_union {k : List Bool} : k ∈ (A.union B).keys ↔ k ∈ A.keys ∨ k ∈ B.keys := by
  simp only [mem_keys, union, Bool.or_eq_true]
  exact and_or_left

theorem mem_keys_diff {k : List Bool} : k ∈ (A.diff B).keys ↔ k ∈ A.keys ∧ k ∉ B.keys := by
  simp only [mem_keys, diff, Bool.and_eq_true, Bool.not_eq_true', List.any_eq_false, List.mem_inits,
    decide_eq_true_eq]
  constructor
  · rintro ⟨hc, hm, hn⟩
    exact ⟨⟨hc, hm⟩, hn k List.prefix_rfl⟩
  · rintro ⟨⟨hc, hm⟩, hn⟩
    refine ⟨hc, hm, fun u hu hb => hn ?_⟩
    rw [← hb.1.eq_of_isPrefix hc hu]
    exact hb

theorem mem_diff_iff {w : List Bool} : (A.diff B).mem w = true ↔ A.mem w = true ∧ ∀ u, u <+: w →
    IsCode u → B.mem u ≠ true := by
  simp only [diff, Bool.and_eq_true, Bool.not_eq_true', List.any_eq_false, List.mem_inits,
    decide_eq_true_eq, not_and]

theorem mem_diff {w : List Bool} (hw : (A.diff B).mem w = true) :
    A.mem w = true ∧ ∀ u, u <+: w → IsCode u → B.mem u ≠ true := mem_diff_iff.mp hw

theorem not_isCode_of_isPrefix {u w : List Bool} (hs : Stays 0 w) (hu : u <+: w) : ¬ IsCode u := by
  obtain ⟨t, rfl⟩ := hu
  exact fun hc => not_stays_closes u 0 hc ((stays_append u t 0).mp hs).1

/-- A step up closes no code. -/
theorem mem_diff_concat_true {w : List Bool} (hw : (A.diff B).mem w = true) :
    (A.diff B).mem (w ++ [true]) = A.mem (w ++ [true]) := by
  have hn : ((w ++ [true]).inits.any fun u => decide (IsCode u) && B.mem u) = false := by
    simp only [List.any_eq_false, List.mem_inits, Bool.and_eq_true, decide_eq_true_eq]
    rintro u hu ⟨hc, hb⟩
    rcases List.prefix_concat_iff.mp hu with rfl | hu
    · have h0 := height_closes hc
      rw [height_append] at h0
      exact Nat.succ_ne_zero _ h0
    · exact (mem_diff hw).2 u hu hc hb
  simp only [diff, hn, Bool.not_false, Bool.and_true]

/-- A step down is kept unless it closes a code of `B`. -/
theorem mem_diff_concat_false {w : List Bool} (hg : Grounded w) (hw : (A.diff B).mem w = true) :
    (A.diff B).mem
    (w ++ [false]) =
      (A.mem (w ++ [false]) && !(decide (height 0 w = 1) && B.mem (w ++ [false]))) := by
  have hany : ((w ++ [false]).inits.any fun u => decide (IsCode u) && B.mem u) =
      (decide (height 0 w = 1) && B.mem (w ++ [false])) := by
    rw [Bool.eq_iff_iff]
    simp only [List.any_eq_true, List.mem_inits, Bool.and_eq_true, decide_eq_true_eq]
    constructor
    · rintro ⟨u, hu, hc, hb⟩
      rcases List.prefix_concat_iff.mp hu with rfl | hu
      · rw [IsCode, closes_append w _ 0 (hc.stays_of_isPrefix (List.prefix_append _ _)
          (by simp))] at hc
        exact ⟨by simpa using hc, hb⟩
      · exact absurd hb ((mem_diff hw).2 u hu hc)
    · rintro ⟨h1, hb⟩
      -- no code of `B` has ended on the way, so this is the first one that ends
      have hs : Stays 0 w := hg.stays fun u hu hc =>
        (mem_diff hw).2 u hu hc (B.mem_of_isPrefix (hu.trans (List.prefix_append w [false])) hb)
      exact ⟨_, List.prefix_rfl, closes_append_false hs h1, hb⟩
  simp only [diff, hany]

end BitTree
