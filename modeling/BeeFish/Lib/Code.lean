/-
# Balanced bit codes

A bit string is read as a walk: a one goes up, a zero goes down. A code is a
walk that starts at the ground and comes back to it at its last bit and not
before. No code is a proper prefix of another (`Closes.eq_of_isPrefix`), so a
concatenation of codes can be cut into its codes in one way only
(`flatten_injective`), and every prefix of one is some whole codes and an
unfinished one (`prefix_flatten`). Walks along codes on end are grounded: they
take no zero at the ground.

Key definitions: `BitCode.height`, `BitCode.Stays`, `BitCode.Closes`,
`BitCode.IsCode`, `BitCode.Grounded`.
-/
import Mathlib.Data.List.Infix
import Mathlib.Data.Nat.Basic
import Mathlib.Tactic.Common

namespace BitCode

/-- The height a walk from `h` reaches: a one goes up, a zero goes down, but
never below the ground. -/
def height : ℕ → List Bool → ℕ
  | h, [] => h
  | h, true :: w => height (h + 1) w
  | h, false :: w => height (h - 1) w

/-- No zero of the walk from `h` reaches the ground. -/
def Stays : ℕ → List Bool → Prop
  | _, [] => True
  | h, true :: w => Stays (h + 1) w
  | h, false :: w => 1 < h ∧ Stays (h - 1) w

/-- The walk from `h` reaches the ground at its last bit and not before. -/
def Closes : ℕ → List Bool → Prop
  | _, [] => False
  | h, true :: w => Closes (h + 1) w
  | h, false :: w => (h = 1 ∧ w = []) ∨ (1 < h ∧ Closes (h - 1) w)

/-- A code: a walk from the ground and back. -/
def IsCode (w : List Bool) : Prop := Closes 0 w

instance decidableStays : ∀ (h : ℕ) (w : List Bool), Decidable (Stays h w)
  | _, [] => isTrue trivial
  | h, true :: w => decidableStays (h + 1) w
  | h, false :: w => @instDecidableAnd _ _ _ (decidableStays (h - 1) w)

instance decidableCloses : ∀ (h : ℕ) (w : List Bool), Decidable (Closes h w)
  | _, [] => isFalse id
  | h, true :: w => decidableCloses (h + 1) w
  | h, false :: w =>
    @instDecidableOr _ _ inferInstance (@instDecidableAnd _ _ _ (decidableCloses (h - 1) w))

instance (w : List Bool) : Decidable (IsCode w) := decidableCloses 0 w

@[simp] theorem height_nil (h : ℕ) : height h [] = h := rfl
@[simp] theorem height_true (h : ℕ) (w : List Bool) : height h (true :: w) = height (h + 1) w := rfl
@[simp] theorem height_false (h : ℕ) (w : List Bool) : height h (false :: w) = height (h - 1) w :=
  rfl

@[simp] theorem stays_nil (h : ℕ) : Stays h [] := trivial
@[simp] theorem stays_true (h : ℕ) (w : List Bool) : Stays h (true :: w) ↔ Stays (h + 1) w :=
  Iff.rfl
@[simp] theorem stays_false (h : ℕ) (w : List Bool) :
    Stays h (false :: w) ↔ 1 < h ∧ Stays (h - 1) w := Iff.rfl

@[simp] theorem not_closes_nil (h : ℕ) : ¬ Closes h [] := id
@[simp] theorem closes_true (h : ℕ) (w : List Bool) : Closes h (true :: w) ↔ Closes (h + 1) w :=
  Iff.rfl
@[simp] theorem closes_false (h : ℕ) (w : List Bool) :
    Closes h (false :: w) ↔ (h = 1 ∧ w = []) ∨ (1 < h ∧ Closes (h - 1) w) := Iff.rfl

/-! ### Walks one after the other -/

@[simp] theorem height_append :
    ∀ (u v : List Bool) (h : ℕ), height h (u ++ v) = height (height h u) v
  | [], _, _ => rfl
  | true :: u, v, h => height_append u v (h + 1)
  | false :: u, v, h => height_append u v (h - 1)

theorem stays_append : ∀ (u v : List Bool) (h : ℕ),
    Stays h (u ++ v) ↔ Stays h u ∧ Stays (height h u) v
  | [], _, _ => by simp
  | true :: u, v, h => by simpa using stays_append u v (h + 1)
  | false :: u, v, h => by simp [stays_append u v (h - 1), and_assoc]

theorem closes_append : ∀ (u v : List Bool) (h : ℕ), Stays h u →
    (Closes h (u ++ v) ↔ Closes (height h u) v)
  | [], _, _, _ => by simp
  | true :: u, v, h, hu => by simpa using closes_append u v (h + 1) hu
  | false :: u, v, h, hu => by
    obtain ⟨h1, hu⟩ := hu
    simp only [List.cons_append, closes_false, height_false, closes_append u v (h - 1) hu]
    constructor
    · rintro (⟨rfl, -⟩ | ⟨-, hc⟩)
      · omega
      · exact hc
    · exact fun hc => Or.inr ⟨h1, hc⟩

/-- A walk that comes down to the ground from `h` comes down by `h` from
anywhere above. -/
theorem closes_add_append {k : ℕ} (hk : 0 < k) (v : List Bool) : ∀ (u : List Bool) (h : ℕ),
    Closes h u →
    (Closes (h + k) (u ++ v) ↔ Closes k v)
  | [], _, hu => hu.elim
  | true :: u, h, hu => by
    simp only [List.cons_append, closes_true]
    rw [show h + k + 1 = h + 1 + k by omega]
    exact closes_add_append hk v u (h + 1) hu
  | false :: u, h, hu => by
    simp only [List.cons_append, closes_false]
    rcases hu with ⟨rfl, rfl⟩ | ⟨h1, hu⟩
    · have : 1 + k - 1 = k := by omega
      simp only [List.nil_append, this]
      constructor
      · rintro (⟨h0, -⟩ | ⟨-, hc⟩)
        · omega
        · exact hc
      · exact fun hc => Or.inr ⟨by omega, hc⟩
    · have hsub : h + k - 1 = h - 1 + k := by omega
      rw [hsub, closes_add_append hk v u (h - 1) hu]
      constructor
      · rintro (⟨h0, -⟩ | ⟨-, hc⟩)
        · omega
        · exact hc
      · exact fun hc => Or.inr ⟨by omega, hc⟩

/-- A code read anywhere above the ground changes nothing. -/
theorem IsCode.closes_append {u : List Bool} (hu : IsCode u) {k : ℕ} (hk : 0 < k) (v : List Bool) :
    Closes k (u ++ v) ↔ Closes k v := by
  simpa using closes_add_append hk v u 0 hu

/-- A walk down to the ground takes as many zeros as it takes ones and came
with. -/
theorem Closes.count : ∀ {w : List Bool} {h : ℕ}, Closes h w → h + w.count true = w.count false
  | true :: w, h, hw => by
    have := Closes.count (w := w) hw
    simp only [List.count_cons]
    simp
    omega
  | false :: w, h, hw => by
    simp only [List.count_cons]
    rcases hw with ⟨rfl, rfl⟩ | ⟨h1, hw⟩
    · rfl
    · have := Closes.count hw
      simp
      omega

/-! ### The last bit of a closing walk -/

theorem Closes.ne_nil {h : ℕ} {w : List Bool} (hw : Closes h w) : w ≠ [] := by
  rintro rfl
  exact hw

theorem not_stays_closes : ∀ (w : List Bool) (h : ℕ), Closes h w → ¬ Stays h w
  | [], _, hw, _ => hw
  | true :: w, h, hw, hs => not_stays_closes w (h + 1) hw hs
  | false :: w, h, hw, hs => by
    rcases hw with ⟨rfl, -⟩ | ⟨-, hw⟩
    · exact absurd hs.1 (by omega)
    · exact not_stays_closes w (h - 1) hw hs.2

/-- A closing walk stays above the ground up to height one and ends with a
zero. -/
theorem Closes.exists_eq : ∀ (w : List Bool) (h : ℕ), Closes h w →
    ∃ u, w = u ++ [false] ∧ Stays h u ∧ height h u = 1
  | [], _, hw => hw.elim
  | true :: w, h, hw => by
    obtain ⟨u, rfl, hs, hh⟩ := Closes.exists_eq w (h + 1) hw
    exact ⟨true :: u, rfl, hs, hh⟩
  | false :: w, h, hw => by
    rcases hw with ⟨rfl, rfl⟩ | ⟨h1, hw⟩
    · exact ⟨[], rfl, trivial, rfl⟩
    · obtain ⟨u, rfl, hs, hh⟩ := Closes.exists_eq w (h - 1) hw
      exact ⟨false :: u, rfl, ⟨h1, hs⟩, hh⟩

theorem height_closes {h : ℕ} {w : List Bool} (hw : Closes h w) : height h w = 0 := by
  obtain ⟨u, rfl, -, hh⟩ := Closes.exists_eq w h hw
  simp [hh]

theorem closes_append_false {h : ℕ} {u : List Bool} (hs : Stays h u) (hh : height h u = 1) :
    Closes h (u ++ [false]) := by
  rw [closes_append u _ h hs, hh]
  simp

theorem stays_append_false {h : ℕ} {u : List Bool} (hs : Stays h u) (hh : 1 < height h u) :
    Stays h (u ++ [false]) := by
  rw [stays_append]
  exact ⟨hs, hh, trivial⟩

theorem stays_append_true {h : ℕ} {u : List Bool} (hs : Stays h u) : Stays h (u ++ [true]) := by
  rw [stays_append]
  exact ⟨hs, trivial⟩

/-- Above the ground a walk that stays above it never touches it. -/
theorem height_pos_of_stays : ∀ (w : List Bool) (h : ℕ), Stays h w → (0 < h ∨ w ≠ []) →
    0 < height h w
  | [], _, _, hp => hp.elim id fun h => absurd rfl h
  | true :: w, h, hs, _ => height_pos_of_stays w (h + 1) hs (Or.inl (by omega))
  | false :: w, h, hs, _ => height_pos_of_stays w (h - 1) hs.2 (Or.inl (by have := hs.1; omega))

/-- What comes before the end of a closing walk stays above the ground. -/
theorem Closes.stays_of_isPrefix {h : ℕ} {u w : List Bool} (hw : Closes h w) (hu : u <+: w)
    (hne : u ≠ w) :
    Stays h u := by
  obtain ⟨v, rfl, hs, -⟩ := Closes.exists_eq w h hw
  rcases List.prefix_concat_iff.mp hu with h1 | ⟨t, rfl⟩
  · exact absurd h1 hne
  · exact ((stays_append u t h).mp hs).1

/-- No closing walk is a proper prefix of another. -/
theorem Closes.eq_of_isPrefix {h : ℕ} {u v : List Bool} (hu : Closes h u) (hv : Closes h v)
    (hp : u <+: v) :
    u = v := by
  by_contra hne
  exact not_stays_closes u h hu (hv.stays_of_isPrefix hp hne)

theorem IsCode.ne_nil {w : List Bool} (hw : IsCode w) : w ≠ [] := Closes.ne_nil hw

/-- A walk that stays above the ground has taken more ones. -/
theorem height_eq_of_stays : ∀ (u : List Bool) (h : ℕ),
    Stays h u → height h u + u.count false = h + u.count true
  | [], _, _ => rfl
  | true :: u, h, hs => by
    have := height_eq_of_stays u (h + 1) hs
    simp only [height_true, List.count_cons]
    simp
    omega
  | false :: u, h, hs => by
    have := height_eq_of_stays u (h - 1) hs.2
    have := hs.1
    simp only [height_false, List.count_cons]
    simp
    omega

/-- From `h` the walk has never taken more zeros than it can. -/
def Above (h : ℕ) (w : List Bool) : Prop := ∀ u, u <+: w → u.count false ≤ h + u.count true

theorem Above.of_true {h : ℕ} {w : List Bool} (hw : Above h (true :: w)) : Above (h + 1) w :=
  fun u hu => by
  have := hw (true :: u) (List.cons_prefix_cons.mpr ⟨rfl, hu⟩)
  simp at this
  omega

theorem Above.pos {h : ℕ} {w : List Bool} (hw : Above h (false :: w)) : 0 < h := by
  have := hw [false] (by simp)
  simp at this
  omega

theorem Above.of_false {h : ℕ} {w : List Bool} (hw : Above h (false :: w)) : Above (h - 1) w :=
  fun u hu => by
  have := hw (false :: u) (List.cons_prefix_cons.mpr ⟨rfl, hu⟩)
  have := hw.pos
  simp at *
  omega

/-- Its height is then what it has taken of both. -/
theorem Above.height_eq : ∀ {w : List Bool} {h : ℕ},
    Above h w → height h w + w.count false = h + w.count true
  | [], _, _ => rfl
  | true :: w, h, hw => by
    have := hw.of_true.height_eq
    rw [height_true]
    simp
    omega
  | false :: w, h, hw => by
    have := hw.of_false.height_eq
    have := hw.pos
    rw [height_false]
    simp
    omega

theorem Above.of_stays {h : ℕ} {w : List Bool} (hs : Stays h w) : Above h w := by
  rintro u ⟨v, rfl⟩
  have := height_eq_of_stays u h ((stays_append u v h).mp hs).1
  omega

theorem Above.of_closes {h : ℕ} {w : List Bool} (hw : Closes h w) : Above h w := by
  intro u hu
  by_cases he : u = w
  · have := he ▸ hw.count
    omega
  · exact Above.of_stays (hw.stays_of_isPrefix hu he) u List.prefix_rfl

/-- On the way along a code the height is zero at its end only. -/
theorem IsCode.height_eq_zero {u w : List Bool} (hw : IsCode w) (hu : u <+: w) (hne : u ≠ []) :
    height 0 u = 0 ↔ u = w := by
  constructor
  · intro h0
    by_contra hne'
    exact (height_pos_of_stays u 0 (hw.stays_of_isPrefix hu hne') (Or.inr hne)).ne' h0
  · rintro rfl
    exact height_closes hw

/-- A code starts with a one. -/
theorem IsCode.exists_cons {w : List Bool} (hw : IsCode w) : ∃ v, w = true :: v := by
  match w, hw with
  | true :: v, _ => exact ⟨v, rfl⟩
  | false :: _, hw => rcases hw with ⟨h, -⟩ | ⟨h, -⟩ <;> omega

/-- A prefix of one of two walks that close is not split by the other. -/
theorem Closes.append_inj {h : ℕ} {u v x y : List Bool} (hu : Closes h u) (hv : Closes h v)
    (he : u ++ x = v ++ y) : u = v ∧ x = y := by
  have huv : u = v := by
    rcases List.prefix_or_prefix_of_prefix (List.prefix_append u x)
      (he ▸ List.prefix_append v y) with hp | hp
    · exact hu.eq_of_isPrefix hv hp
    · exact (hv.eq_of_isPrefix hu hp).symm
  subst huv
  exact ⟨rfl, List.append_cancel_left he⟩

/-- Two bit strings agree as far as one of them goes, or split. -/
theorem prefix_or_split : ∀ u v : List Bool,
    u <+: v ∨ v <+: u ∨ ∃ y c s t, u = y ++ c :: s ∧ v = y ++ (!c) :: t
  | [], _ => Or.inl List.nil_prefix
  | _ :: _, [] => Or.inr (Or.inl List.nil_prefix)
  | a :: u, b :: v => by
    by_cases hab : b = a
    · subst hab
      rcases prefix_or_split u v with h | h | ⟨y, c, s, t, rfl, rfl⟩
      · exact Or.inl (List.cons_prefix_cons.mpr ⟨rfl, h⟩)
      · exact Or.inr (Or.inl (List.cons_prefix_cons.mpr ⟨rfl, h⟩))
      · exact Or.inr (Or.inr ⟨b :: y, c, s, t, rfl, rfl⟩)
    · exact Or.inr (Or.inr ⟨[], a, u, v, rfl, by rw [Bool.eq_not.mpr hab]; rfl⟩)

theorem not_concat_isPrefix {w : List Bool} {c : Bool} : ¬ w ++ [c] <+: w := fun hp => by
  have := hp.length_le
  rw [List.length_append, List.length_singleton] at this
  omega

theorem not_concat_prefix_concat {w : List Bool} {c : Bool} : ¬ w ++ [c] <+: w ++ [!c] :=
  fun hp => by
  simpa using hp.eq_of_length (by simp)

/-- Nothing is below both of two bits. -/
theorem not_prefix_both {u w : List Bool} (hl : w ++ [false] <+: u) (hr : w ++ [true] <+: u) :
    False := by
  obtain ⟨x, rfl⟩ := hl
  obtain ⟨y, hy⟩ := hr
  simp at hy

/-! ### Concatenations of codes -/

/-- The concatenations of two lists of codes agree as far as the lists do. -/
theorem prefix_of_flatten_isPrefix : ∀ (js ks : List (List Bool)), (∀ k ∈ js, IsCode k) →
    (∀ k ∈ ks, IsCode k) →
    js.flatten <+: ks.flatten → js <+: ks
  | [], _, _, _, _ => List.nil_prefix
  | j :: js, [], hj, _, hp => by
    have : (j :: js).flatten = [] := List.prefix_nil.mp hp
    simp only [List.flatten_cons, List.append_eq_nil_iff] at this
    exact absurd this.1 (hj j List.mem_cons_self).ne_nil
  | j :: js, k :: ks, hj, hk, hp => by
    obtain ⟨t, ht⟩ := hp
    simp only [List.flatten_cons, List.append_assoc] at ht
    obtain ⟨rfl, he⟩ := Closes.append_inj (hj j List.mem_cons_self) (hk k List.mem_cons_self) ht
    refine List.cons_prefix_cons.mpr ⟨rfl, prefix_of_flatten_isPrefix js ks ?_ ?_ ⟨t, he⟩⟩
    · exact fun x hx => hj x (List.mem_cons_of_mem _ hx)
    · exact fun x hx => hk x (List.mem_cons_of_mem _ hx)

theorem flatten_prefix_flatten {js ks : List (List Bool)} (hp : js <+: ks) :
    js.flatten <+: ks.flatten := by
  obtain ⟨t, rfl⟩ := hp
  simp

/-- A prefix of a concatenation of codes is some of its codes and then an
unfinished one. -/
theorem prefix_flatten : ∀ (ks : List (List Bool)) (w : List Bool), (∀ k ∈ ks, IsCode k) →
    w <+: ks.flatten →
    ∃ js r, w = js.flatten ++ r ∧ Stays 0 r ∧ js <+: ks ∧
      (r = [] ∨ ∃ k, js ++ [k] <+: ks ∧ r <+: k ∧ r ≠ k)
  | [], w, _, hw => ⟨[], [], by simpa using hw, trivial, List.nil_prefix, Or.inl rfl⟩
  | k :: ks, w, hk, hw => by
    have hkc := hk k List.mem_cons_self
    rw [List.flatten_cons] at hw
    by_cases hwk : w <+: k ∧ w ≠ k
    · refine ⟨[], w, rfl, Closes.stays_of_isPrefix hkc hwk.1 hwk.2, List.nil_prefix,
        Or.inr ⟨k, ?_, hwk.1, hwk.2⟩⟩
      exact List.cons_prefix_cons.mpr ⟨rfl, List.nil_prefix⟩
    · have hkw : k <+: w := by
        rcases List.prefix_or_prefix_of_prefix (List.prefix_append k ks.flatten) hw with hp | hp
        · exact hp
        · by_cases he : w = k
          · exact he ▸ List.prefix_rfl
          · exact absurd ⟨hp, he⟩ hwk
      obtain ⟨t, rfl⟩ := hkw
      have ht : t <+: ks.flatten := (List.prefix_append_right_inj k).mp hw
      obtain ⟨js, r, rfl, hs, hjs, hr⟩ :=
        prefix_flatten ks t (fun x hx => hk x (List.mem_cons_of_mem _ hx)) ht
      refine ⟨k :: js, r, by simp, hs, List.cons_prefix_cons.mpr ⟨rfl, hjs⟩, ?_⟩
      rcases hr with hr | ⟨k', h1, h2, h3⟩
      · exact Or.inl hr
      · exact Or.inr ⟨k', List.cons_prefix_cons.mpr ⟨rfl, h1⟩, h2, h3⟩

/-! ### Walks that stay above the ground -/

/-- No zero of the walk is taken at the ground. -/
def Grounded (w : List Bool) : Prop := ∀ u, u ++ [false] <+: w → 0 < height 0 u

theorem Grounded.of_isPrefix {u w : List Bool} (h : Grounded w) (hu : u <+: w) : Grounded u :=
  fun v hv => h v (hv.trans hu)

theorem grounded_nil : Grounded [] := fun u hu => by simp at hu

theorem Grounded.of_stays {w : List Bool} (h : Stays 0 w) : Grounded w := fun u hu => by
  obtain ⟨v, rfl⟩ := hu
  have hs := ((stays_append (u ++ [false]) v 0).mp h).1
  have h1 := ((stays_append u [false] 0).mp hs).2.1
  omega

/-- A code, and then a walk that stays above the ground. -/
theorem IsCode.grounded_append {k v : List Bool} (hk : IsCode k) (hv : Grounded v) :
    Grounded (k ++ v) := by
  intro u hu
  rcases List.prefix_or_prefix_of_prefix hu (List.prefix_append k v) with hp | ⟨x, hx⟩
  · have hs : Stays 0 u := hk.stays_of_isPrefix ((List.prefix_append u [false]).trans hp)
      fun he => by
      subst he
      exact not_concat_isPrefix hp
    refine height_pos_of_stays u 0 hs (Or.inr ?_)
    rintro rfl
    obtain ⟨y, hy⟩ := hk.exists_cons
    simp [hy] at hp
  · rcases List.eq_nil_or_concat x with rfl | ⟨y, b, rfl⟩
    · -- the zero is the last bit of the code
      rw [List.append_nil] at hx
      subst hx
      have hs : Stays 0 u := hk.stays_of_isPrefix (List.prefix_append u [false])
        fun he => by simpa using congrArg List.length he
      refine height_pos_of_stays u 0 hs (Or.inr ?_)
      rintro rfl
      obtain ⟨y, hy⟩ := hk.exists_cons
      cases hy
    · rw [List.concat_eq_append, ← List.append_assoc] at hx
      obtain ⟨rfl, hb⟩ := List.append_inj' hx rfl
      obtain rfl : b = false := by simpa using hb
      rw [List.append_assoc, List.prefix_append_right_inj] at hu
      rw [height_append, height_closes hk]
      exact hv y hu

theorem grounded_flatten : ∀ {ks : List (List Bool)}, (∀ k ∈ ks, IsCode k) → Grounded ks.flatten
  | [], _ => grounded_nil
  | k :: _, h =>
    (h k List.mem_cons_self).grounded_append (grounded_flatten fun j hj =>
      h j (List.mem_cons_of_mem _ hj))

/-- Before its first code has ended a walk stays above the ground. -/
theorem Grounded.stays {w : List Bool} (h : Grounded w) (hn : ∀ u, u <+: w → ¬ IsCode u) :
    Stays 0 w := by
  induction w using List.reverseRecOn with
  | nil => trivial
  | append_singleton w b ih =>
    have hp : w <+: w ++ [b] := List.prefix_append w [b]
    have hs := ih (h.of_isPrefix hp) fun u hu => hn u (hu.trans hp)
    cases b with
    | true => exact stays_append_true hs
    | false =>
      have hpos := h w List.prefix_rfl
      by_cases h1 : height 0 w = 1
      · exact absurd (closes_append_false hs h1) (hn _ List.prefix_rfl)
      · exact stays_append_false hs (by omega)

/-- A walk that is back at the ground begins with a code. -/
theorem Grounded.exists_code {w : List Bool} (h : Grounded w) (h0 : height 0 w = 0) (hne : w ≠ []) :
    ∃ k, k <+: w ∧ IsCode k := by
  by_contra hn
  simp only [not_exists, not_and] at hn
  exact (height_pos_of_stays w 0 (h.stays hn) (Or.inr hne)).ne' h0

end BitCode
