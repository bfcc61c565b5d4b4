/-
# Numbers in doubles

`PowerEncoding` computes with `double`: the number is converted to one, `log2` is
rounded to one, and the difference is converted back to an `unsigned long` of 64
bits. So the code that it writes is that of `write` below 2^49 - 1 only
(`returns_write_of_lt`). From there on the last digits are rounded away, and a
number whose highest digits are all ones has the logarithm of the next power of
two; the remainder is then negative and comes round to almost 2^64. If it stays
below 2^64 as a double too, it has itself as its remainder, and `write` does not
end (`write_eq_none`); otherwise the code is that of the number raised to the
power of two, with the code of 2^64 at its end (`returns_write`).

Key definitions: `PowerEncoding.write`, `PowerEncoding.read`, `PowerEncoding.Near`,
`PowerEncoding.placed`.
-/
import BeeFish.Encoding
import BeeFish.Lib.Fuel
import BeeFish.Lib.Rounding
import Mathlib.Analysis.Complex.ExponentialBounds
import Mathlib.Analysis.SpecialFunctions.Log.Base
import Mathlib.Data.Nat.Find

namespace BeeFish

open BitCode

namespace PowerEncoding

/-! ### The functions of the source -/

/-- An `unsigned long` as a `double`. -/
def toDouble (value : ℕ) : ℕ := Binary.round 53 value

/-- A whole `double` as an `unsigned long`. A negative one comes round, and one from
2^64 on is zero, as on x86-64; the language leaves both open. -/
def toUnsigned (d : ℤ) : ℕ := if d < 2 ^ 64 then (d % 2 ^ 64).toNat else 0

/-- The double `d` is so near to the next power of two that `log2` of it is a whole
number: there the doubles are `2 ^ -47` apart, and the logarithm is less than half
of that away (`roundsUp_iff_logb`). -/
def RoundsUp (d : ℕ) : Prop := (2 ^ (d.log2 + 1) - d) * 2 ^ 53 ≤ 22 * 2 ^ (d.log2 + 1)

instance (d : ℕ) : Decidable (RoundsUp d) := inferInstanceAs (Decidable (_ ≤ _))

/-- `floor(log2(d))` -/
def floorLog2 (d : ℕ) : ℕ := if RoundsUp d then d.log2 + 1 else d.log2

/-- `PowerEncoding::power` -/
def power (value : ℕ) : ℕ := floorLog2 (toDouble value)

/-- `PowerEncoding::remainder`. The difference is a double itself. -/
def remainder (value power : ℕ) : ℕ := toUnsigned (toDouble value - 2 ^ power)

/-- `PowerEncoding::write` -/
def write : ℕ → ℕ → Option (List Bool)
  | 0, _ => none
  | fuel + 1, value =>
    if value = 0 then some [false]
    else do
      let power_ ← write fuel (power value)
      let remainder_ ← write fuel (remainder value (power value))
      return true :: (power_ ++ remainder_)

/-- `PowerEncoding::read` -/
def read : ℕ → Stack → Option (ℕ × Stack)
  | 0, _ => none
  | fuel + 1, s =>
    let (bit, s) := s.readBit
    if bit = false then some (0, s)
    else do
      let (power, s) ← read fuel s
      let (remainder, s) ← read fuel s
      return (toUnsigned (toDouble (2 ^ power + toDouble remainder)), s)

/-! ### The logarithm -/

/-- What a double lacks of the next power of two is a number of its last places. -/
theorem two_pow_dvd_of_short {d : ℕ} (hshort : Binary.Short 53 d) :
    2 ^ (d.log2 + 1) ∣ (2 ^ (d.log2 + 1) - d) * 2 ^ 53 := by
  have hunit : 2 ^ (d.log2 + 1) ∣ d * 2 ^ 53 := by
    have hpow : 2 ^ (d.log2 + 1) ∣ 2 ^ (d.log2 + 1 - 53) * 2 ^ 53 := by
      rw [← pow_add]
      exact pow_dvd_pow 2 (by omega)
    exact hpow.trans (Nat.mul_dvd_mul_right (Binary.unit_dvd hshort) _)
  rw [Nat.sub_mul]
  exact Nat.dvd_sub (Nat.dvd_mul_right _ _) hunit

/-- `log2` of a double is rounded up exactly if it is within `2 ^ -48` of the next
whole number, half of what the doubles from 32 to 64 are apart. -/
theorem roundsUp_iff_logb {d : ℕ} (hd : d ≠ 0) (hshort : Binary.Short 53 d) :
    RoundsUp d ↔ (d.log2 + 1 : ℝ) - Real.logb 2 d ≤ 1 / 2 ^ 48 := by
  obtain ⟨q, hq⟩ := two_pow_dvd_of_short hshort
  have hlt : d < 2 ^ (d.log2 + 1) := Nat.lt_log2_self
  have hJ : (0 : ℝ) < 2 ^ (d.log2 + 1) := by positivity
  have hpos : (0 : ℝ) < d := by exact_mod_cast Nat.pos_of_ne_zero hd
  set y : ℝ := q / 2 ^ 53 with hy
  have hratio : (d : ℝ) = 2 ^ (d.log2 + 1) * (1 - y) := by
    have hcast : ((2 : ℝ) ^ (d.log2 + 1) - d) * 2 ^ 53 = 2 ^ (d.log2 + 1) * q := by
      have := congrArg (Nat.cast : ℕ → ℝ) hq
      rw [Nat.cast_mul, Nat.cast_sub hlt.le] at this
      exact_mod_cast this
    rw [hy]
    field_simp
    linarith
  have h1y : 0 < 1 - y := (mul_pos_iff_of_pos_left hJ).mp (hratio ▸ hpos)
  have hlogb : (d.log2 + 1 : ℝ) - Real.logb 2 d = -Real.log (1 - y) / Real.log 2 := by
    rw [Real.logb, hratio, Real.log_mul hJ.ne' h1y.ne', Real.log_pow]
    have hlog2 : Real.log 2 ≠ 0 := (Real.log_pos (by norm_num)).ne'
    field_simp
    push_cast
    ring
  have hup : RoundsUp d ↔ q ≤ 22 := by
    rw [RoundsUp, hq, Nat.mul_comm 22]
    exact Nat.mul_le_mul_left_iff (Nat.two_pow_pos _)
  have hgt := Real.log_two_gt_d9
  have hlt2 := Real.log_two_lt_d9
  rw [hup, hlogb, div_le_iff₀ (by linarith)]
  constructor
  · intro hle
    have hq' : (q : ℝ) ≤ 22 := by exact_mod_cast hle
    have hy22 : y ≤ 22 / 2 ^ 53 := by
      rw [hy]
      gcongr
    have hinv : (1 - y)⁻¹ ≤ (1 - 22 / 2 ^ 53)⁻¹ := by gcongr
    have hlower := Real.one_sub_inv_le_log_of_pos h1y
    norm_num at hinv ⊢
    linarith
  · intro hle
    by_contra hlt
    have hq' : (23 : ℝ) ≤ q := by exact_mod_cast (by omega : 23 ≤ q)
    have hy23 : 23 / 2 ^ 53 ≤ y := by
      rw [hy]
      gcongr
    have hupper := Real.log_le_sub_one_of_pos h1y
    norm_num at hle hy23
    linarith

/-! ### Near to a power of two -/

/-- The last `j` digits of a double are so near to `2 ^ j`. -/
def Near (d j : ℕ) : Prop := (2 ^ j - d % 2 ^ j) * 2 ^ 53 ≤ 22 * 2 ^ j

instance (d : ℕ) : DecidablePred (Near d) := fun _ => inferInstanceAs (Decidable (_ ≤ _))

variable {d k t j : ℕ}

theorem near_half (h : Near d j) : 2 ^ j ≤ 2 * (d % 2 ^ j) := by
  have hlt : d % 2 ^ j < 2 ^ j := Nat.mod_lt _ (Nat.two_pow_pos j)
  unfold Near at h
  generalize 2 ^ j = J at *
  omega

theorem near_le (h : Near d j) (hd : d < 2 ^ k) : j ≤ k := by
  have hhalf := near_half h
  have hmod : d % 2 ^ j ≤ d := Nat.mod_le _ _
  by_contra hk
  have hpow : 2 ^ (k + 1) ≤ 2 ^ j := Nat.pow_le_pow_right Nat.two_pos (by omega)
  rw [pow_succ] at hpow
  omega

/-- So near are only long numbers. -/
theorem le_of_near (h : Near d j) : 49 ≤ j := by
  by_contra hj
  have hpow : 2 ^ j ≤ 2 ^ 48 := Nat.pow_le_pow_right Nat.two_pos (by omega)
  have hlt : d % 2 ^ j < 2 ^ j := Nat.mod_lt _ (Nat.two_pow_pos j)
  unfold Near at h
  generalize 2 ^ j = J at *
  omega

theorem near_add (hj : j ≤ k) : Near (2 ^ k + t) j ↔ Near t j := by
  have hmod : (2 ^ k + t) % 2 ^ j = t % 2 ^ j := by
    obtain ⟨i, hi⟩ := pow_dvd_pow 2 hj
    rw [hi, Nat.mul_add_mod]
  rw [Near, Near, hmod]

theorem exists_eq (h : d ≠ 0) : ∃ k t, d = 2 ^ k + t ∧ t < 2 ^ k := by
  have hle := Nat.log2_self_le h
  have hlt : d < 2 ^ (d.log2 + 1) := Nat.lt_log2_self
  rw [pow_succ] at hlt
  exact ⟨d.log2, d - 2 ^ d.log2, by omega, by omega⟩

theorem log2_eq (ht : t < 2 ^ k) : (2 ^ k + t).log2 = k := by
  have hne : 2 ^ k + t ≠ 0 := by
    have := Nat.two_pow_pos k
    omega
  have hle : k ≤ (2 ^ k + t).log2 := (Nat.le_log2 hne).mpr (Nat.le_add_right _ _)
  have hlt : (2 ^ k + t).log2 < k + 1 := (Nat.log2_lt hne).mpr (by rw [pow_succ]; omega)
  omega

theorem roundsUp_iff (ht : t < 2 ^ k) : RoundsUp (2 ^ k + t) ↔ Near (2 ^ k + t) (k + 1) := by
  have hmod : (2 ^ k + t) % 2 ^ (k + 1) = 2 ^ k + t := Nat.mod_eq_of_lt (by rw [pow_succ]; omega)
  rw [RoundsUp, Near, log2_eq ht, hmod]

theorem not_near_zero (j : ℕ) : ¬ Near 0 j := fun h => by
  have hhalf := near_half h
  have hpos := Nat.two_pow_pos j
  rw [Nat.zero_mod] at hhalf
  omega

/-! ### What the code stands for -/

/-- The first digits that are near, if any; zero digits never are. -/
def raised (d : ℕ) : ℕ := Nat.findGreatest (Near d) 64

/-- The double, with its digits that are near raised to the power of two. -/
def placed (d : ℕ) : ℕ := if raised d = 0 then d else (d / 2 ^ raised d + 1) * 2 ^ raised d

theorem raised_zero : raised 0 = 0 := by
  rw [raised, Nat.findGreatest_eq_iff]
  exact ⟨Nat.zero_le _, fun h => absurd rfl h, fun j _ _ => not_near_zero j⟩

theorem placed_zero : placed 0 = 0 := if_pos raised_zero

theorem near_raised (h : raised d ≠ 0) : Near d (raised d) := (Nat.findGreatest_eq_iff.mp rfl).2.1 h

theorem raised_le (d : ℕ) : raised d ≤ 64 := Nat.findGreatest_le 64

theorem raised_eq (ht : t < 2 ^ k) (hk : 2 ^ k + t ≤ 2 ^ 64) :
    raised (2 ^ k + t) = if Near (2 ^ k + t) (k + 1) then k + 1 else raised t := by
  have hlt : 2 ^ k + t < 2 ^ (k + 1) := by
    rw [pow_succ]
    omega
  have hover : ∀ {n}, k + 1 < n → ¬ Near (2 ^ k + t) n := fun hn h => by
    have := near_le h hlt
    omega
  split_ifs with hnear
  · rw [raised, Nat.findGreatest_eq_iff]
    refine ⟨?_, fun _ => hnear, fun n hn _ => hover hn⟩
    -- the power of two itself is not near to the next one
    by_contra hk64
    have hpow : 2 ^ 64 ≤ 2 ^ k := Nat.pow_le_pow_right Nat.two_pos (by omega)
    have hdouble : 2 ^ (k + 1) = 2 * 2 ^ k := by ring
    unfold Near at hnear
    rw [Nat.mod_eq_of_lt hlt, hdouble] at hnear
    generalize 2 ^ k = K at hnear hpow hk
    omega
  · rw [raised, Nat.findGreatest_eq_iff]
    refine ⟨raised_le t, fun h => ?_, fun n hn hn64 => ?_⟩
    · have ht' := near_raised h
      exact (near_add (near_le ht' ht)).mpr ht'
    · rcases Nat.lt_trichotomy n (k + 1) with hlow | rfl | hhigh
      · rw [near_add (by omega)]
        exact Nat.findGreatest_is_greatest hn hn64
      · exact hnear
      · exact hover hhigh

theorem raised_le_of_lt (ht : t < 2 ^ k) : raised t ≤ k := by
  by_cases h : raised t = 0
  · omega
  · exact near_le (near_raised h) ht

theorem placed_eq (ht : t < 2 ^ k) (hk : 2 ^ k + t ≤ 2 ^ 64) :
    placed (2 ^ k + t) = if Near (2 ^ k + t) (k + 1) then 2 ^ (k + 1) else 2 ^ k + placed t := by
  rw [placed, raised_eq ht hk]
  by_cases hnear : Near (2 ^ k + t) (k + 1)
  · rw [if_pos hnear, if_pos hnear, if_neg (Nat.succ_ne_zero k),
      Nat.div_eq_of_lt (by rw [pow_succ]; omega), Nat.zero_add,
      Nat.one_mul]
  · rw [if_neg hnear, if_neg hnear, placed]
    split_ifs with h0
    · rfl
    · obtain ⟨i, hi⟩ := pow_dvd_pow 2 (raised_le_of_lt ht)
      rw [hi, Nat.mul_add_div (Nat.two_pow_pos _)]
      ring

/-- The number that is placed is the double or comes after it. -/
theorem placed_of_raised (h : raised d ≠ 0) : placed d = d + (2 ^ raised d - d % 2 ^ raised d) := by
  have hdiv := Nat.div_add_mod d (2 ^ raised d)
  have hlt : d % 2 ^ raised d < 2 ^ raised d := Nat.mod_lt _ (Nat.two_pow_pos _)
  rw [placed, if_neg h, Nat.add_mul, one_mul, Nat.mul_comm]
  omega

theorem le_placed (d : ℕ) : d ≤ placed d := by
  by_cases h : raised d = 0
  · rw [placed, if_pos h]
  · rw [placed_of_raised h]
    omega

theorem placed_lt (ht : t < 2 ^ k) (hnear : ¬ Near (2 ^ k + t) (k + 1)) : placed t < 2 ^ k := by
  by_cases h : raised t = 0
  · rw [placed, if_pos h]
    exact ht
  · by_contra hge
    apply hnear
    have hr := near_raised h
    have hpow : 2 ^ raised t ≤ 2 ^ k := Nat.pow_le_pow_right Nat.two_pos (raised_le_of_lt ht)
    have hmod : (2 ^ k + t) % 2 ^ (k + 1) = 2 ^ k + t := Nat.mod_eq_of_lt (by rw [pow_succ]; omega)
    have hdouble : 2 ^ (k + 1) = 2 * 2 ^ k := by ring
    rw [placed_of_raised h] at hge
    unfold Near at hr ⊢
    rw [hmod, hdouble]
    generalize 2 ^ k = K at ht hge hpow ⊢
    generalize 2 ^ raised t - t % 2 ^ raised t = e at hr hge
    generalize 2 ^ raised t = R at hr hpow
    have hsub : 2 * K - (K + t) ≤ e := by omega
    calc (2 * K - (K + t)) * 2 ^ 53 ≤ e * 2 ^ 53 := Nat.mul_le_mul_right _ hsub
      _ ≤ 22 * R := hr
      _ ≤ 22 * (2 * K) := Nat.mul_le_mul_left _ (by omega)

/-! ### One step of writing -/

variable {value e : ℕ}

theorem toUnsigned_natCast {n : ℕ} (h : n < 2 ^ 64) : toUnsigned n = n := by
  rw [toUnsigned, if_pos (by omega)]
  omega

theorem toUnsigned_neg (h0 : 0 < e) (h : e ≤ 2 ^ 64) : toUnsigned (-e) = 2 ^ 64 - e := by
  rw [toUnsigned, if_pos (by omega)]
  omega

theorem toDouble_of_short (h : Binary.Short 53 value) : toDouble value = value :=
  Binary.round_of_short h

theorem toDouble_of_lt (h : value < 2 ^ 53) : toDouble value = value :=
  toDouble_of_short (Binary.short_of_lt h)

/-- Only zero is rounded to zero. -/
theorem ne_zero_of_toDouble (hd : toDouble value = 2 ^ k + t) : value ≠ 0 := by
  rintro rfl
  rw [toDouble_of_lt (Nat.two_pow_pos 53)] at hd
  have := Nat.two_pow_pos k
  omega

theorem power_of_near (hd : toDouble value = 2 ^ k + t) (ht : t < 2 ^ k)
    (hnear : Near (2 ^ k + t) (k + 1)) :
    power value = k + 1 := by
  rw [power, hd, floorLog2, if_pos ((roundsUp_iff ht).mpr hnear), log2_eq ht]

theorem power_of_not_near (hd : toDouble value = 2 ^ k + t) (ht : t < 2 ^ k)
    (hnear : ¬ Near (2 ^ k + t) (k + 1)) :
    power value = k := by
  rw [power, hd, floorLog2, if_neg (mt (roundsUp_iff ht).mp hnear), log2_eq ht]

theorem remainder_of_near (hd : toDouble value = 2 ^ k + t) (ht : t < 2 ^ k)
    (hk : 2 ^ k + t ≤ 2 ^ 64) :
    remainder value (k + 1) = 2 ^ 64 - (2 ^ k - t) := by
  have hdiff : ((2 ^ k + t : ℕ) : ℤ) - 2 ^ (k + 1) = -((2 ^ k - t : ℕ) : ℤ) := by
    rw [Nat.cast_sub ht.le]
    push_cast
    ring
  rw [remainder, hd, hdiff, toUnsigned_neg (by omega) (by omega)]

theorem remainder_of_not_near (hd : toDouble value = 2 ^ k + t) (ht : t < 2 ^ k)
    (hk : 2 ^ k + t ≤ 2 ^ 64) :
    remainder value k = t := by
  have hdiff : ((2 ^ k + t : ℕ) : ℤ) - 2 ^ k = (t : ℤ) := by
    push_cast
    ring
  rw [remainder, hd, hdiff, toUnsigned_natCast (by omega)]

theorem returns_zero : Returns (write · 0) [false] := Returns.of_succ fun _ => if_pos rfl

theorem returns_step {u v : List Bool} (h : value ≠ 0) (hp : Returns (write · (power value)) u)
    (hr : Returns (write · (remainder value (power value))) v) :
    Returns (write · value) (true :: (u ++ v)) := by
  refine Returns.bind hp (g := fun u fuel => (write fuel (remainder value (power value))).map
    fun v => true :: (u ++ v)) ?_ ?_
  · exact hr.map fun v => true :: (u ++ v)
  · intro fuel
    rw [write, if_neg h]
    cases write fuel (power value) with
    | none => rfl
    | some u => cases write fuel (remainder value (power value)) <;> rfl

theorem none_step (h : value ≠ 0) (hr : ∀ fuel, write fuel (remainder value (power value)) = none)
    (fuel : ℕ) :
    write fuel value = none := by
  cases fuel with
  | zero => rfl
  | succ fuel =>
    rw [write, if_neg h, hr fuel]
    cases write fuel (power value) <;> rfl

/-! ### Small numbers -/

theorem not_near_of_lt (h : d < 2 ^ 49 - 1) : ¬ Near d j := fun hnear => by
  have hj := le_of_near hnear
  obtain ⟨i, rfl⟩ := Nat.exists_eq_add_of_le hj
  have hpos : 1 ≤ 2 ^ i := Nat.one_le_two_pow
  have hpow : 2 ^ (49 + i) = 2 ^ 49 * 2 ^ i := pow_add 2 49 i
  have hmod : d % 2 ^ (49 + i) ≤ d := Nat.mod_le _ _
  unfold Near at hnear
  generalize d % 2 ^ (49 + i) = x at hnear hmod
  rw [hpow] at hnear
  generalize 2 ^ i = I at hnear hpos
  omega

/-- **Small numbers are written as they are.** -/
theorem returns_write_of_lt (value : ℕ) :
    value < 2 ^ 49 - 1 → Returns (write · value) (BeeFish.write value) := by
  induction value using Nat.strong_induction_on with
  | _ value ih =>
    intro h
    by_cases h0 : value = 0
    · rw [h0, write_zero]
      exact returns_zero
    · obtain ⟨k, t, rfl, ht⟩ := exists_eq h0
      have hd : toDouble (2 ^ k + t) = 2 ^ k + t := toDouble_of_lt (by omega)
      have hpower : BeeFish.power (2 ^ k + t) = k := log2_eq ht
      have hremainder : BeeFish.remainder (2 ^ k + t) k = t := Nat.add_sub_cancel_left _ _
      have hlt := power_lt h0
      have hp := power_of_not_near hd ht (not_near_of_lt h)
      rw [write_pos h0, hpower, hremainder]
      rw [hpower] at hlt
      apply returns_step h0
      · rw [hp]
        exact ih k hlt (by omega)
      · rw [hp, remainder_of_not_near hd ht (by omega)]
        exact ih t (by have := Nat.two_pow_pos k; omega) (by omega)

/-! ### The code that is written -/

/-- The bits of `write` with others in place of the last zero. -/
def writeThen (last : List Bool) (value : ℕ) : List Bool :=
  if _h : value = 0 then last
  else true :: (BeeFish.write (BeeFish.power value) ++ writeThen last
    (BeeFish.remainder value (BeeFish.power value)))
termination_by value
decreasing_by exact remainder_lt _h

@[simp] theorem writeThen_zero (last : List Bool) : writeThen last 0 = last := by
  rw [writeThen]
  rfl

theorem writeThen_eq (last : List Bool) (ht : t < 2 ^ k) :
    writeThen last (2 ^ k + t) = true :: (BeeFish.write k ++ writeThen last t) := by
  have hne : 2 ^ k + t ≠ 0 := by
    have := Nat.two_pow_pos k
    omega
  have hpower : BeeFish.power (2 ^ k + t) = k := log2_eq ht
  have hremainder : BeeFish.remainder (2 ^ k + t) k = t := Nat.add_sub_cancel_left _ _
  rw [writeThen, dif_neg hne, hpower, hremainder]

/-- How the code of a double ends: with a zero, or where digits have been raised
with the code of 2^64. -/
def lastBits (d : ℕ) : List Bool := if raised d = 0 then [false] else BeeFish.write (2 ^ 64)

/-- The code of a number that is `d` as a double. -/
def code (d : ℕ) : List Bool := writeThen (lastBits d) (placed d)

theorem code_zero : code 0 = [false] := by
  rw [code, placed_zero, writeThen_zero, lastBits, if_pos raised_zero]

theorem code_of_near (ht : t < 2 ^ k) (hk : 2 ^ k + t ≤ 2 ^ 64) (hnear : Near (2 ^ k + t) (k + 1)) :
    code (2 ^ k + t) = true :: (BeeFish.write (k + 1) ++ BeeFish.write (2 ^ 64)) := by
  rw [code, placed_eq ht hk, if_pos hnear, lastBits, raised_eq ht hk, if_pos hnear,
    if_neg (Nat.succ_ne_zero k)]
  have hwrite := writeThen_eq (k := k + 1) (t := 0) (BeeFish.write (2 ^ 64)) (Nat.two_pow_pos _)
  rwa [writeThen_zero] at hwrite

theorem code_of_not_near (ht : t < 2 ^ k) (hk : 2 ^ k + t ≤ 2 ^ 64)
    (hnear : ¬ Near (2 ^ k + t) (k + 1)) :
    code (2 ^ k + t) = true :: (BeeFish.write k ++ code t) := by
  rw [code, placed_eq ht hk, if_neg hnear, lastBits, raised_eq ht hk, if_neg hnear]
  exact writeThen_eq _ (placed_lt ht hnear)

theorem toDouble_top (h0 : 0 < e) (h : e ≤ 22 * 2 ^ 11) :
    if e ≤ 1024 then toDouble (2 ^ 64 - e) = 2 ^ 64
    else ∃ e', 0 < e' ∧ e' ≤ 22 * 2 ^ 11 ∧ toDouble (2 ^ 64 - e) = 2 ^ 64 - e' ∧
      Binary.Short 53 (2 ^ 64 - e') := by
  have hlog : (2 ^ 64 - e).log2 = 63 := by
    have hsplit : 2 ^ 64 - e = 2 ^ 63 + (2 ^ 63 - e) := by omega
    rw [hsplit]
    exact log2_eq (by omega)
  have hunit : Binary.unit 53 (2 ^ 64 - e) = 2048 := by
    rw [Binary.unit, hlog]
    rfl
  have hshort := Binary.short_round (p := 53) (by decide) (2 ^ 64 - e)
  have hround : toDouble (2 ^ 64 - e) = Binary.round 53 (2 ^ 64 - e) := rfl
  rw [hround]
  split_ifs with hsmall
  · rw [Binary.round, hunit]
    split_ifs <;> omega
  · refine ⟨2 ^ 64 - Binary.round 53 (2 ^ 64 - e), ?_, ?_, ?_, ?_⟩
    · rw [Binary.round, hunit]
      split_ifs <;> omega
    · rw [Binary.round, hunit]
      split_ifs <;> omega
    · rw [Binary.round, hunit]
      split_ifs <;> omega
    · have hle : Binary.round 53 (2 ^ 64 - e) ≤ 2 ^ 64 := by
        rw [Binary.round, hunit]
        split_ifs <;> omega
      rw [Nat.sub_sub_self hle]
      exact hshort

/-- What is near is less than 22 · 2^11 below the power of two. -/
theorem le_of_near_top (ht : t < 2 ^ k) (hk : 2 ^ k + t ≤ 2 ^ 64)
    (hnear : Near (2 ^ k + t) (k + 1)) : 2 ^ k - t ≤ 22 * 2 ^ 11 := by
  have hmod : (2 ^ k + t) % 2 ^ (k + 1) = 2 ^ k + t := Nat.mod_eq_of_lt (by rw [pow_succ]; omega)
  have hdouble : 2 ^ (k + 1) = 2 * 2 ^ k := by ring
  have h63 : 2 ^ k ≤ 2 ^ 63 := by
    have hraised := raised_eq ht hk
    rw [if_pos hnear] at hraised
    have hle := raised_le (2 ^ k + t)
    exact Nat.pow_le_pow_right Nat.two_pos (by omega)
  unfold Near at hnear
  rw [hmod, hdouble] at hnear
  generalize 2 ^ k = K at *
  omega

theorem write_top : BeeFish.write (2 ^ 64) = true :: (BeeFish.write 64 ++ [false]) := by
  have hpower : BeeFish.power (2 ^ 64) = 64 := Nat.log2_two_pow
  have hremainder : BeeFish.remainder (2 ^ 64) 64 = 0 := Nat.sub_self _
  rw [write_pos (Nat.two_pow_pos 64).ne', hpower, hremainder, write_zero]

theorem returns_top (hd : toDouble value = 2 ^ 64) :
    Returns (write · value) (BeeFish.write (2 ^ 64)) := by
  have h0 : (0 : ℕ) < 2 ^ 64 := Nat.two_pow_pos 64
  have hd' : toDouble value = 2 ^ 64 + 0 := hd
  have hnear : ¬ Near (2 ^ 64 + 0) (64 + 1) := by decide
  have hp := power_of_not_near hd' h0 hnear
  rw [write_top]
  apply returns_step (ne_zero_of_toDouble hd')
  · rw [hp]
    exact returns_write_of_lt 64 (by decide)
  · rw [hp, remainder_of_not_near hd' h0 (by decide)]
    exact returns_zero

/-- The code of a number: of the double, with the digits raised that are near,
where they are no more than 1024 away. -/
theorem returns_write (d : ℕ) : Binary.Short 53 d → d ≤ 2 ^ 64 → placed d ≤ d + 1024 → ∀ {value},
    toDouble value = d →
    Returns (write · value) (code d) := by
  induction d using Nat.strong_induction_on with
  | _ d ih =>
    intro hshort hle hplaced value hd
    by_cases h0 : d = 0
    · subst h0
      have hvalue : value = 0 := by
        by_contra hne
        have := Binary.two_pow_le_round (p := 53) (by decide) hne
        have := Nat.two_pow_pos value.log2
        have hround : Binary.round 53 value = 0 := hd
        omega
      rw [hvalue, code_zero]
      exact returns_zero
    · obtain ⟨k, t, rfl, ht⟩ := exists_eq h0
      have hk : k ≤ 64 := by
        by_contra hlt
        have := Nat.pow_le_pow_right (n := 2) Nat.two_pos (show 65 ≤ k by omega)
        omega
      have hsmall : ∀ j, j ≤ 65 → Returns (write · j) (BeeFish.write j) :=
        fun j hj => returns_write_of_lt j (by omega)
      by_cases hnear : Near (2 ^ k + t) (k + 1)
      · -- the remainder comes round, and is 2^64 as a double
        rw [placed_eq ht hle, if_pos hnear] at hplaced
        have htop := toDouble_top (e := 2 ^ k - t) (by omega) (le_of_near_top ht hle hnear)
        rw [if_pos (by rw [pow_succ] at hplaced; omega)] at htop
        rw [code_of_near ht hle hnear]
        apply returns_step (ne_zero_of_toDouble hd)
        · rw [power_of_near hd ht hnear]
          exact hsmall (k + 1) (by omega)
        · rw [power_of_near hd ht hnear, remainder_of_near hd ht hle]
          exact returns_top htop
      · rw [placed_eq ht hle, if_neg hnear] at hplaced
        have htail : Binary.Short 53 t := by
          have hmod : (2 ^ k + t) % 2 ^ k = t := by rw [Nat.add_mod_left, Nat.mod_eq_of_lt ht]
          exact hmod ▸ hshort.mod k
        have hlt : t < 2 ^ k + t := Nat.lt_add_of_pos_left (Nat.two_pow_pos k)
        rw [code_of_not_near ht hle hnear]
        apply returns_step (ne_zero_of_toDouble hd)
        · rw [power_of_not_near hd ht hnear]
          exact hsmall k (by omega)
        · rw [power_of_not_near hd ht hnear, remainder_of_not_near hd ht hle]
          exact ih t hlt htail (by omega) (by omega) (toDouble_of_short htail)

/-- A number that almost is 2^64 as a double has itself as its remainder. -/
theorem write_top_eq_none : ∀ (fuel : ℕ) {value e : ℕ}, 0 < e → e ≤ 22 * 2 ^ 11 →
    toDouble value = 2 ^ 64 - e →
    Binary.Short 53 (2 ^ 64 - e) → write fuel value = none
  | 0, _, _, _, _, _, _ => rfl
  | fuel + 1, value, e, h0, he, hd, hshort => by
    have hsplit : 2 ^ 64 - e = 2 ^ 63 + (2 ^ 63 - e) := by omega
    have ht : 2 ^ 63 - e < 2 ^ 63 := by omega
    have hnear : Near (2 ^ 63 + (2 ^ 63 - e)) (63 + 1) := by
      rw [Near, Nat.mod_eq_of_lt (by omega)]
      omega
    rw [hsplit] at hd
    have hvalue := ne_zero_of_toDouble hd
    have hrest : remainder value (power value) = 2 ^ 64 - e := by
      rw [power_of_near hd ht hnear, remainder_of_near hd ht (by omega)]
      omega
    rw [write, if_neg hvalue, hrest, write_top_eq_none fuel h0 he (toDouble_of_short hshort) hshort]
    cases write fuel (power value) <;> rfl

/-- **Some numbers are not written**: those with digits that are raised by more
than 1024. -/
theorem write_eq_none (d : ℕ) : Binary.Short 53 d → d ≤ 2 ^ 64 → d + 1024 < placed d → ∀ {value},
    toDouble value = d →
    ∀ fuel, write fuel value = none := by
  induction d using Nat.strong_induction_on with
  | _ d ih =>
    intro hshort hle hplaced value hd
    have h0 : d ≠ 0 := by
      rintro rfl
      rw [placed_zero] at hplaced
      omega
    obtain ⟨k, t, rfl, ht⟩ := exists_eq h0
    apply none_step (ne_zero_of_toDouble hd)
    by_cases hnear : Near (2 ^ k + t) (k + 1)
    · rw [placed_eq ht hle, if_pos hnear, pow_succ] at hplaced
      have htop := toDouble_top (e := 2 ^ k - t) (by omega) (le_of_near_top ht hle hnear)
      rw [if_neg (by omega)] at htop
      obtain ⟨e, h0, he, htop, hshort⟩ := htop
      rw [power_of_near hd ht hnear, remainder_of_near hd ht hle]
      exact fun fuel => write_top_eq_none fuel h0 he htop hshort
    · rw [placed_eq ht hle, if_neg hnear] at hplaced
      have htail : Binary.Short 53 t := by
        have hmod : (2 ^ k + t) % 2 ^ k = t := by rw [Nat.add_mod_left, Nat.mod_eq_of_lt ht]
        exact hmod ▸ hshort.mod k
      rw [power_of_not_near hd ht hnear, remainder_of_not_near hd ht hle]
      exact ih t (Nat.lt_add_of_pos_left (Nat.two_pow_pos k)) htail (by omega) (by omega)
        (toDouble_of_short htail)

theorem toDouble_le (h : value ≤ 2 ^ 64) : toDouble value ≤ 2 ^ 64 := by
  have hmono := Binary.round_mono (p := 53) (by decide) h
  rwa [Binary.round_of_short (Binary.short_two_pow (by decide) 64)] at hmono

theorem short_toDouble (value : ℕ) : Binary.Short 53 (toDouble value) :=
  Binary.short_round (by decide) value

/-- The number has a code: its digits that are near to a power of two, if any, are
no more than 1024 below it. -/
def Written (value : ℕ) : Prop := placed (toDouble value) ≤ toDouble value + 1024

instance (value : ℕ) : Decidable (Written value) := inferInstanceAs (Decidable (_ ≤ _))

theorem Written.returns (h : Written value) (hvalue : value ≤ 2 ^ 64) :
    Returns (write · value) (code (toDouble value)) :=
  returns_write _ (short_toDouble value) (toDouble_le hvalue) h rfl

theorem write_none_of_not (h : ¬ Written value) (hvalue : value ≤ 2 ^ 64) (fuel : ℕ) :
    write fuel value = none :=
  write_eq_none _ (short_toDouble value) (toDouble_le hvalue) (Nat.not_le.mp h) rfl fuel

theorem closes_writeThen {last : List Bool} (h : Closes 1 last) (value : ℕ) :
    Closes 1 (writeThen last value) := by
  induction value using Nat.strong_induction_on with
  | _ value ih =>
    by_cases h0 : value = 0
    · rwa [h0, writeThen_zero]
    · obtain ⟨k, t, rfl, ht⟩ := exists_eq h0
      rw [writeThen_eq last ht, closes_true]
      exact (closes_add_append Nat.one_pos _ _ 1 (closes_write k)).mpr
        (ih t (Nat.lt_add_of_pos_left (Nat.two_pow_pos k)))

/-- A code in doubles comes down by one, as one of `write` does. -/
theorem closes_code (d : ℕ) : Closes 1 (code d) := by
  refine closes_writeThen ?_ _
  unfold lastBits
  split_ifs
  · exact Or.inl ⟨rfl, rfl⟩
  · exact closes_write _

theorem isCode_code (d : ℕ) : IsCode (true :: code d) := by
  rw [IsCode, closes_true]
  exact closes_code d

/-! ### The number that is read -/

theorem placed_le (hd : d ≤ 2 ^ 64) : placed d ≤ 2 ^ 64 := by
  by_cases h0 : d = 0
  · rw [h0, placed_zero]
    exact Nat.zero_le _
  · obtain ⟨k, t, rfl, ht⟩ := exists_eq h0
    have hraised := raised_eq ht hd
    have hle := raised_le (2 ^ k + t)
    rw [placed_eq ht hd]
    split_ifs at hraised ⊢ with hnear
    · exact Nat.pow_le_pow_right Nat.two_pos (hraised ▸ hle)
    · have hlt := placed_lt ht hnear
      rcases Nat.lt_or_ge k 64 with hk | hk
      · have hpow : 2 ^ (k + 1) ≤ 2 ^ 64 := Nat.pow_le_pow_right Nat.two_pos hk
        rw [pow_succ] at hpow
        omega
      · have hpow : 2 ^ 64 ≤ 2 ^ k := Nat.pow_le_pow_right Nat.two_pos hk
        obtain rfl : t = 0 := by omega
        rw [placed_zero]
        exact hd

theorem short_placed (hshort : Binary.Short 53 d) (hd : d ≤ 2 ^ 64) :
    Binary.Short 53 (placed d) := by
  by_cases h : raised d = 0
  · rwa [placed, if_pos h]
  · have hpow : 2 ^ 49 ≤ 2 ^ raised d :=
      Nat.pow_le_pow_right Nat.two_pos (le_of_near (near_raised h))
    have hdiv : d / 2 ^ raised d ≤ d / 2 ^ 49 := Nat.div_le_div_left hpow (Nat.two_pow_pos 49)
    rw [placed, if_neg h]
    exact Binary.short_mul (by decide) (by omega)

theorem reads_zero : ReadsNumber read [false] 0 := fun fuel s post hf hs => by
  obtain ⟨fuel, rfl⟩ := Nat.exists_eq_succ_of_ne_zero (Nat.ne_zero_of_lt hf)
  simp [read, Stack.readBit_of_rest hs]

/-- A number is read from those of its power and its remainder. -/
theorem reads_step {u v : List Bool} {power remainder : ℕ} (hu : ReadsNumber read u power)
    (hv : ReadsNumber read v remainder) :
    ReadsNumber read (true :: (u ++ v)) (toUnsigned (toDouble (2 ^ power + toDouble remainder))) :=
  fun fuel s post hf hs => by
  obtain ⟨fuel, rfl⟩ := Nat.exists_eq_succ_of_ne_zero (Nat.ne_zero_of_lt hf)
  simp only [List.cons_append, List.append_assoc, List.length_cons, List.length_append] at hs hf
  have h1 := Stack.rest_advance_cons hs
  have h2 := Stack.rest_advance h1
  have r1 := hu fuel (by omega) h1
  have r2 := hv fuel (by omega) h2
  simp only [Stack.advance_advance, List.cons_append, List.nil_append] at r1 r2
  simp [read, Stack.readBit_of_rest hs, r1, r2]

/-- **Numbers of 53 bits are read back**, from the code of exact numbers. -/
theorem reads_write_of_lt (value : ℕ) :
    value < 2 ^ 53 → ReadsNumber read (BeeFish.write value) value := by
  induction value using Nat.strong_induction_on with
  | _ value ih =>
    intro h
    by_cases h0 : value = 0
    · rw [h0, write_zero]
      exact reads_zero
    · obtain ⟨k, t, rfl, ht⟩ := exists_eq h0
      have hpower : BeeFish.power (2 ^ k + t) = k := log2_eq ht
      have hremainder : BeeFish.remainder (2 ^ k + t) k = t := Nat.add_sub_cancel_left _ _
      have hlt := power_lt h0
      rw [hpower] at hlt
      have hread :=
        reads_step (ih k hlt (by omega)) (ih t (Nat.lt_add_of_pos_left (Nat.two_pow_pos k))
        (by omega))
      rw [write_pos h0, hpower, hremainder]
      rwa [toDouble_of_lt (show t < 2 ^ 53 by omega), toDouble_of_lt h,
        toUnsigned_natCast (by omega)] at hread

theorem toUnsigned_top : toUnsigned (toDouble (2 ^ 64 + toDouble 0)) = 0 := by
  rw [toDouble_of_lt (Nat.two_pow_pos 53), Nat.add_zero,
    toDouble_of_short (Binary.short_two_pow (by decide) 64)]
  exact if_neg (by decide)

theorem reads_top : ReadsNumber read (BeeFish.write (2 ^ 64)) 0 := by
  rw [write_top]
  have hread := reads_step (reads_write_of_lt 64 (by decide)) reads_zero
  rwa [toUnsigned_top] at hread

/-- A double below 2^64 is 2048 below it, so none is raised to 2^64. -/
theorem two_pow_lt_of_near (ht : t < 2 ^ k) (hshort : Binary.Short 53 (2 ^ k + t))
    (hle : 2 ^ k + t ≤ 2 ^ 64) (hnear : Near (2 ^ k + t) (k + 1))
    (hplaced : 2 ^ (k + 1) ≤ 2 ^ k + t + 1024) : 2 ^ (k + 1) < 2 ^ 64 := by
  have hk : k + 1 ≤ 64 := by
    have hraised := raised_eq ht hle
    rw [if_pos hnear] at hraised
    exact hraised ▸ raised_le (2 ^ k + t)
  by_contra hge
  obtain rfl : k = 63 := by
    have := (Nat.pow_le_pow_iff_right (by decide : 1 < 2)).mp (Nat.not_lt.mp hge)
    omega
  have hdvd : 2048 ∣ 2 ^ 63 + t := by
    have hunit : Binary.unit 53 (2 ^ 63 + t) = 2048 := by
      rw [Binary.unit, log2_eq ht]
      rfl
    exact hunit ▸ Binary.unit_dvd hshort
  omega

/-- What is read from a code is the number that it stands for, and zero if that
is 2^64. -/
theorem reads_code (d : ℕ) : Binary.Short 53 d → d ≤ 2 ^ 64 → placed d ≤ d + 1024 →
    ReadsNumber read (code d) (if d = 2 ^ 64 then 0 else placed d) := by
  induction d using Nat.strong_induction_on with
  | _ d ih =>
    intro hshort hle hplaced
    by_cases h0 : d = 0
    · rw [h0, code_zero, placed_zero]
      exact reads_zero
    obtain ⟨k, t, rfl, ht⟩ := exists_eq h0
    have hk : k ≤ 64 := by
      by_contra hlt
      have := Nat.pow_le_pow_right (n := 2) Nat.two_pos (show 65 ≤ k by omega)
      omega
    by_cases hnear : Near (2 ^ k + t) (k + 1)
    · have hread := reads_step (reads_write_of_lt (k + 1) (by omega)) reads_top
      have hdouble : 2 ^ (k + 1) = 2 * 2 ^ k := by ring
      rw [placed_eq ht hle, if_pos hnear] at hplaced ⊢
      have hlt := two_pow_lt_of_near ht hshort hle hnear hplaced
      rw [code_of_near ht hle hnear, if_neg (by omega)]
      have hsum : 2 ^ (k + 1) + toDouble 0 = 2 ^ (k + 1) := by
        rw [toDouble_of_lt (Nat.two_pow_pos 53)]
        rfl
      rwa [hsum, toDouble_of_short (Binary.short_two_pow (by decide) _),
        toUnsigned_natCast hlt] at hread
    · have hshort' := short_placed hshort hle
      have hle' := placed_le hle
      rw [placed_eq ht hle, if_neg hnear] at hplaced hshort' hle' ⊢
      have htail : Binary.Short 53 t := by
        have hmod : (2 ^ k + t) % 2 ^ k = t := by rw [Nat.add_mod_left, Nat.mod_eq_of_lt ht]
        exact hmod ▸ hshort.mod k
      have hread := reads_step (reads_write_of_lt k (by omega))
        (ih t (Nat.lt_add_of_pos_left (Nat.two_pow_pos k)) htail (by omega) (by omega))
      rw [if_neg (by omega), toDouble_of_short (short_placed htail (by omega)),
        toDouble_of_short hshort'] at hread
      rw [code_of_not_near ht hle hnear]
      have hlt := placed_lt ht hnear
      split_ifs with hd
      · obtain rfl : k = 64 := by rw [← log2_eq ht, hd, Nat.log2_two_pow]
        obtain rfl : t = 0 := by omega
        rw [placed_zero, Nat.add_zero] at hread
        rwa [show toUnsigned ((2 ^ 64 : ℕ) : ℤ) = 0 from if_neg (by decide)] at hread
      · rwa [toUnsigned_natCast ?_] at hread
        have hk64 : k < 64 := by
          by_contra hge
          obtain rfl : k = 64 := by omega
          omega
        have hpow : 2 ^ (k + 1) ≤ 2 ^ 64 := Nat.pow_le_pow_right Nat.two_pos hk64
        rw [pow_succ] at hpow
        omega

end PowerEncoding

end BeeFish
