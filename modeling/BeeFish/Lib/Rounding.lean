/-
# Rounding to binary digits

A natural number with more than `p` binary digits is rounded to one that has no
more, the nearest, and of two that are as near the one whose last digit is even.
Rounding keeps the order (`round_mono`) and what has no more digits
(`round_of_short`), such as every number up to `2 ^ p` and every multiple of a
power of two that is not too large.

Key definitions: `Binary.Short`, `Binary.round`.
-/
import Mathlib.Algebra.Order.Ring.Nat
import Mathlib.Data.Nat.Log
import Mathlib.Tactic.Common
import Mathlib.Tactic.Ring

namespace Binary

/-- The number has no more than `p` binary digits before the zeros at its end. -/
def Short (p n : ℕ) : Prop := ∃ q s, q < 2 ^ p ∧ n = q * 2 ^ s

/-- The distance of the numbers with `p` digits that are as large as `n`. -/
def unit (p n : ℕ) : ℕ := 2 ^ (n.log2 + 1 - p)

/-- `n` with `p` binary digits, rounded half to even. -/
def round (p n : ℕ) : ℕ :=
  (if unit p n < 2 * (n % unit p n) ∨ 2 * (n % unit p n) = unit p n ∧ n / unit p n % 2 = 1
    then n / unit p n + 1 else n / unit p n) * unit p n

variable {p m n : ℕ}

theorem unit_pos (p n : ℕ) : 0 < unit p n := Nat.two_pow_pos _

/-! ### Short numbers -/

theorem short_of_lt (h : n < 2 ^ p) : Short p n := ⟨n, 0, h, by rw [pow_zero, mul_one]⟩

theorem short_mul {q s : ℕ} (hp : 0 < p) (hq : q ≤ 2 ^ p) : Short p (q * 2 ^ s) := by
  rcases hq.lt_or_eq with hlt | rfl
  · exact ⟨q, s, hlt, rfl⟩
  · exact ⟨1, p + s, Nat.one_lt_two_pow hp.ne', by rw [one_mul, pow_add]⟩

theorem short_two_pow (hp : 0 < p) (s : ℕ) : Short p (2 ^ s) := by
  simpa using short_mul (q := 1) (s := s) hp Nat.one_le_two_pow

/-- The last digits of a short number. -/
theorem Short.mod (h : Short p n) (j : ℕ) : Short p (n % 2 ^ j) := by
  obtain ⟨q, s, hq, rfl⟩ := h
  rcases Nat.le_total j s with hj | hj
  · have hzero : q * 2 ^ s % 2 ^ j = 0 := Nat.mod_eq_zero_of_dvd ((pow_dvd_pow 2 hj).mul_left q)
    rw [hzero]
    exact short_of_lt (Nat.two_pow_pos p)
  · obtain ⟨i, rfl⟩ := Nat.exists_eq_add_of_le hj
    refine ⟨q % 2 ^ i, s, (Nat.mod_le _ _).trans_lt hq, ?_⟩
    rw [Nat.add_comm, pow_add, Nat.mul_mod_mul_right]

theorem unit_dvd (h : Short p n) : unit p n ∣ n := by
  obtain ⟨q, s, hq, rfl⟩ := h
  rcases Nat.eq_zero_or_pos q with rfl | hpos
  · rw [zero_mul]
    exact dvd_zero _
  · have hne : q * 2 ^ s ≠ 0 := (Nat.mul_pos hpos (Nat.two_pow_pos s)).ne'
    have hlog : (q * 2 ^ s).log2 < p + s := by
      rw [Nat.log2_lt hne, pow_add]
      exact Nat.mul_lt_mul_of_pos_right hq (Nat.two_pow_pos s)
    exact (pow_dvd_pow 2 (by omega)).mul_left q

/-- A short number stays as it is. -/
theorem round_of_short (h : Short p n) : round p n = n := by
  have hmod : n % unit p n = 0 := Nat.mod_eq_zero_of_dvd (unit_dvd h)
  have hpos := unit_pos p n
  have hno : ¬ (unit p n < 2 * (n % unit p n) ∨ 2 * (n % unit p n) = unit p n ∧
    n / unit p n % 2 = 1) := by
    rw [hmod]
    omega
  rw [round, if_neg hno]
  exact Nat.div_mul_cancel (unit_dvd h)

/-! ### Between two powers -/

/-- The whole units of a number are no more than `p` digits. -/
theorem div_unit_lt (p n : ℕ) : n / unit p n < 2 ^ p := by
  rw [Nat.div_lt_iff_lt_mul (unit_pos p n), unit, ← pow_add]
  exact Nat.lt_log2_self.trans_le (Nat.pow_le_pow_right Nat.two_pos (by omega))

theorem short_round (hp : 0 < p) (n : ℕ) : Short p (round p n) := by
  have hlt := div_unit_lt p n
  apply short_mul hp
  split_ifs <;> omega

theorem round_le_two_pow (n : ℕ) : round p n ≤ 2 ^ (n.log2 + 1) := by
  have hexp : n.log2 + 1 - p ≤ n.log2 + 1 := Nat.sub_le _ _
  have hsplit : 2 ^ (n.log2 + 1) = 2 ^ (n.log2 + 1 - (n.log2 + 1 - p)) * unit p n := by
    rw [unit, ← pow_add, Nat.sub_add_cancel hexp]
  have hlt : n / unit p n < 2 ^ (n.log2 + 1 - (n.log2 + 1 - p)) := by
    rw [Nat.div_lt_iff_lt_mul (unit_pos p n), ← hsplit]
    exact Nat.lt_log2_self
  rw [hsplit, round]
  apply Nat.mul_le_mul_right
  split_ifs <;> omega

theorem two_pow_le_round (hp : 0 < p) (hn : n ≠ 0) : 2 ^ n.log2 ≤ round p n := by
  have hsplit : 2 ^ n.log2 = 2 ^ (n.log2 - (n.log2 + 1 - p)) * unit p n := by
    rw [unit, ← pow_add]
    congr 1
    omega
  have hle : 2 ^ (n.log2 - (n.log2 + 1 - p)) ≤ n / unit p n := by
    rw [Nat.le_div_iff_mul_le (unit_pos p n), ← hsplit]
    exact Nat.log2_self_le hn
  rw [hsplit, round]
  apply Nat.mul_le_mul_right
  split_ifs <;> omega

/-- **Rounding keeps the order.** -/
theorem round_mono (hp : 0 < p) (h : m ≤ n) : round p m ≤ round p n := by
  rcases Nat.eq_zero_or_pos m with rfl | hm
  · rw [round_of_short (short_of_lt (Nat.two_pow_pos p))]
    exact Nat.zero_le _
  have hn : n ≠ 0 := by omega
  have hlog : m.log2 ≤ n.log2 := (Nat.le_log2 hn).mpr ((Nat.log2_self_le hm.ne').trans h)
  rcases hlog.lt_or_eq with hlt | heq
  · calc round p m ≤ 2 ^ (m.log2 + 1) := round_le_two_pow m
      _ ≤ 2 ^ n.log2 := Nat.pow_le_pow_right Nat.two_pos hlt
      _ ≤ round p n := two_pow_le_round hp hn
  · -- the same unit
    have hunit : unit p m = unit p n := by rw [unit, unit, heq]
    have hdiv : m / unit p n ≤ n / unit p n := Nat.div_le_div_right h
    rw [round, round, hunit]
    apply Nat.mul_le_mul_right
    rcases hdiv.lt_or_eq with hlt | hsame
    · split_ifs <;> omega
    · have hm' := Nat.div_add_mod m (unit p n)
      have hn' := Nat.div_add_mod n (unit p n)
      rw [hsame] at hm' ⊢
      split_ifs <;> omega

end Binary
