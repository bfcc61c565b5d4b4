/-
# The order of codes

The code of a smaller number leaves that of a larger one to the left: it takes
a zero where the other takes a one (`rightOf_encode`). The highest bits decide,
and where they agree the rest below them. A string is written byte for byte, so
the first byte that differs decides, and a string that ends stops with a zero
where a longer one goes on with a one. So the codes come in the order of the
values, which is what `min`, `max` and sorted iteration rely on (`encode_order`).

The numbers that go through doubles are in order as far as their doubles are, and
a number that is raised to a power of two comes after all that begin with its
digits then (`order_iff`).
-/
import BeeFish.Balance
import BeeFish.Lib.BitTree

namespace BeeFish

open BitCode BitTree

/-! ### Numbers -/

theorem rightOf_write {m : ℕ} : ∀ {n : ℕ}, m < n → RightOf (write m) (write n) := by
  induction m using Nat.strong_induction_on with
  | _ m ih =>
    intro n h
    have hn : n ≠ 0 := by omega
    rw [write_pos hn]
    by_cases hm : m = 0
    · rw [hm, write_zero]
      exact ⟨[], [], _, rfl, rfl⟩
    · rw [write_pos hm]
      have hle : power m ≤ power n := (Nat.le_log2 hn).mpr ((Nat.log2_self_le hm).trans h.le)
      rcases hle.lt_or_eq with hlt | heq
      · have hr := (ih _ (power_lt hm) hlt).append [true] (write (remainder m (power m)))
          (write (remainder n (power n)))
        simpa using hr
      · -- the same highest bit: the rest decides
        have hrem : remainder m (power m) < remainder n (power n) := by
          have h1 := power_add_remainder hm
          have h2 := power_add_remainder hn
          rw [← heq] at h2 ⊢
          omega
        have hr := (ih _ (remainder_lt hm) hrem).append (true :: write (power m)) [] []
        rw [← heq]
        rw [← heq] at hr
        simpa using hr

theorem rightOf_encode_of_lt {m n : ℕ} (h : m < n) : RightOf (encode m) (encode n) := by
  have hr := (rightOf_write h).append [true] [] []
  rwa [List.append_nil, List.append_nil] at hr

/-- A number is written to the left of the larger ones. -/
theorem rightOf_encode {m n : ℕ} : RightOf (encode m) (encode n) ↔ m < n := by
  constructor
  · intro h
    by_contra hge
    rcases (not_lt.mp hge).lt_or_eq with hlt | rfl
    · exact List.lt_asymm h.lt (rightOf_encode_of_lt hlt).lt
    · exact List.lt_irrefl _ h.lt
  · exact rightOf_encode_of_lt

theorem encode_lt {m n : ℕ} : (encode m : List Bool) < encode n ↔ m < n := by
  rw [← rightOf_encode]
  exact ⟨fun h => rightOf_of_lt (LawfulEncoded.isCode m) (LawfulEncoded.isCode n) h, RightOf.lt⟩

/-! ### Strings -/

theorem rightOf_encodeChars {s t : BString} (h : s < t) :
    RightOf (s.flatMap encodeChar ++ [false]) (t.flatMap encodeChar ++ [false]) := by
  induction h with
  | @nil c cs => exact ⟨[], [], _, rfl, rfl⟩
  | @cons c cs ds _ ih =>
    have hr := ih.append (encodeChar c) [] []
    simpa using hr
  | @rel c cs d ds hcd =>
    have hr := (rightOf_write (UInt8.lt_iff_toNat_lt.mp hcd)).append [true]
      (cs.flatMap encodeChar ++ [false])
      (ds.flatMap encodeChar ++ [false])
    simpa [encodeChar] using hr

theorem rightOf_encode_string {s t : BString} (h : s < t) : RightOf (encode s) (encode t) := by
  have hr := (rightOf_encodeChars h).append [true] [] []
  rwa [List.append_nil, List.append_nil] at hr

theorem BString.lt_or_eq_or_gt : ∀ s t : BString, s < t ∨ s = t ∨ t < s
  | [], [] => Or.inr (Or.inl rfl)
  | [], _ :: _ => Or.inl .nil
  | _ :: _, [] => Or.inr (Or.inr .nil)
  | c :: s, d :: t => by
    rcases lt_trichotomy c.toNat d.toNat with hcd | hcd | hdc
    · exact Or.inl (.rel (UInt8.lt_iff_toNat_lt.mpr hcd))
    · obtain rfl := UInt8.toNat_inj.mp hcd
      rcases BString.lt_or_eq_or_gt s t with h | rfl | h
      · exact Or.inl (.cons h)
      · exact Or.inr (Or.inl rfl)
      · exact Or.inr (Or.inr (.cons h))
    · exact Or.inr (Or.inr (.rel (UInt8.lt_iff_toNat_lt.mpr hdc)))

theorem encode_string_lt {s t : BString} : (encode s : List Bool) < encode t ↔ s < t := by
  constructor
  · intro h
    rcases BString.lt_or_eq_or_gt s t with hst | rfl | hts
    · exact hst
    · exact absurd h (List.lt_irrefl _)
    · exact absurd h (List.lt_asymm (rightOf_encode_string hts).lt)
  · exact fun h => (rightOf_encode_string h).lt

/-- **The key encoding preserves order**: of numbers, and of byte strings as
they are compared byte by byte. -/
theorem encode_order : (∀ m n : ℕ, m < n ↔ (encode m : List Bool) < encode n) ∧
    ∀ s t : BString, s < t ↔ (encode s : List Bool) < encode t :=
  ⟨fun _ _ => encode_lt.symm, fun _ _ => encode_string_lt.symm⟩

/-! ### Numbers in doubles -/

namespace PowerEncoding

variable {d d' k l t u : ℕ}

/-- What is raised below a digit stays below it, and so does what comes next. -/
theorem placed_add_le (ht : t < 2 ^ k) (hnear : ¬ Near (2 ^ k + t) (k + 1)) :
    placed t + 2 ^ raised t ≤ 2 ^ k := by
  have hlt := placed_lt ht hnear
  by_cases h : raised t = 0
  · rw [h, pow_zero]
    exact hlt
  · obtain ⟨i, hi⟩ := pow_dvd_pow 2 (raised_le_of_lt ht)
    rw [placed, if_neg h, hi, ← Nat.mul_comm (2 ^ raised t)] at hlt
    have hle : t / 2 ^ raised t + 1 + 1 ≤ i := Nat.lt_of_mul_lt_mul_left hlt
    calc placed t + 2 ^ raised t = 2 ^ raised t * (t / 2 ^ raised t + 1 + 1) := by
          rw [placed, if_neg h]
          ring
      _ ≤ 2 ^ k := by
          rw [hi]
          exact Nat.mul_le_mul_left _ hle

/-- The smaller power decides. -/
theorem rightOf_of_power {x y : List Bool} (h : k < l) :
    RightOf (true :: (BeeFish.write k ++ x)) (true :: (BeeFish.write l ++ y)) := by
  simpa using (rightOf_write h).append [true] x y

/-- The code of a tail comes before that of 2^64. -/
theorem rightOf_top (hu : u < 2 ^ l) (hl : 2 ^ l + u ≤ 2 ^ 64)
    (hnear : ¬ Near (2 ^ l + u) (l + 1)) :
    RightOf (code u) (BeeFish.write (2 ^ 64)) := by
  rw [write_top]
  by_cases h0 : u = 0
  · rw [h0, code_zero]
    exact ⟨[], [], _, rfl, rfl⟩
  · obtain ⟨i, v, rfl, hv⟩ := exists_eq h0
    have hlt := placed_lt hu hnear
    have hle : 2 ^ i + v ≤ 2 ^ 64 := by omega
    have hl64 : l ≤ 64 := by
      by_contra hl65
      have := Nat.pow_le_pow_right (n := 2) Nat.two_pos (show 65 ≤ l by omega)
      omega
    rw [placed_eq hv hle] at hlt
    by_cases hn : Near (2 ^ i + v) (i + 1)
    · rw [if_pos hn] at hlt
      have hil := (Nat.pow_lt_pow_iff_right (by decide : 1 < 2)).mp hlt
      rw [code_of_near hv hle hn]
      exact rightOf_of_power (by omega)
    · rw [if_neg hn] at hlt
      have hil := (Nat.pow_lt_pow_iff_right (by decide : 1 < 2)).mp
        ((Nat.le_add_right _ _).trans_lt hlt)
      rw [code_of_not_near hv hle hn]
      exact rightOf_of_power (by omega)

/-- The same highest digit: the tails decide. -/
theorem rightOf_of_tail (k : ℕ) {x y : List Bool} (h : RightOf x y) :
    RightOf (true :: (BeeFish.write k ++ x)) (true :: (BeeFish.write k ++ y)) := by
  simpa using h.append (true :: BeeFish.write k) [] []

/-- What is larger in the same row is as near. -/
theorem near_of_le (htu : t ≤ u) (hu : u < 2 ^ k) (h : Near (2 ^ k + t) (k + 1)) :
    Near (2 ^ k + u) (k + 1) := by
  have hmod : ∀ {x}, x < 2 ^ k → (2 ^ k + x) % 2 ^ (k + 1) = 2 ^ k + x := fun hx =>
    Nat.mod_eq_of_lt (by rw [pow_succ]; omega)
  unfold Near at h ⊢
  rw [hmod (htu.trans_lt hu)] at h
  rw [hmod hu]
  calc (2 ^ (k + 1) - (2 ^ k + u)) * 2 ^ 53
      ≤ (2 ^ (k + 1) - (2 ^ k + t)) * 2 ^ 53 := Nat.mul_le_mul_right _ (by omega)
    _ ≤ 22 * 2 ^ (k + 1) := h

/-- The smaller one is raised to the next power. -/
theorem rightOf_code_of_near (ht : t < 2 ^ k) (hu : u < 2 ^ l) (hkl : k ≤ l)
    (hlt : 2 ^ k + t < 2 ^ l + u) (hle : 2 ^ l + u ≤ 2 ^ 64) (hnear : Near (2 ^ k + t) (k + 1)) :
    if placed (2 ^ k + t) + 2 ^ raised (2 ^ k + t) ≤ placed (2 ^ l + u) then
      RightOf (code (2 ^ k + t)) (code (2 ^ l + u))
    else code (2 ^ k + t) = code (2 ^ l + u) ∨
      RightOf (code (2 ^ l + u)) (code (2 ^ k + t)) := by
  have hle' : 2 ^ k + t ≤ 2 ^ 64 := hlt.le.trans hle
  have hplaced' := le_placed (2 ^ l + u)
  have hnext : 2 ^ (k + 1) + 2 ^ (k + 1) = 2 ^ (k + 2) := by ring
  rw [raised_eq ht hle', placed_eq ht hle', placed_eq hu hle, if_pos hnear, if_pos hnear,
    code_of_near ht hle' hnear, hnext]
  by_cases hn : Near (2 ^ l + u) (l + 1)
  · rw [if_pos hn, code_of_near hu hle hn]
    rcases hkl.lt_or_eq with hk | rfl
    · rw [if_pos (Nat.pow_le_pow_right Nat.two_pos (by omega))]
      exact rightOf_of_power (by omega)
    · rw [if_neg (Nat.not_le.mpr (Nat.pow_lt_pow_right (by decide) (by omega)))]
      exact Or.inl rfl
  · rw [if_neg hn, code_of_not_near hu hle hn]
    have hk : k ≠ l := by
      rintro rfl
      exact hn (near_of_le (by omega) hu hnear)
    have hplaced := placed_lt hu hn
    rcases (show k + 1 ≤ l by omega).lt_or_eq with hk | rfl
    · have hpow : 2 ^ (k + 2) ≤ 2 ^ l := Nat.pow_le_pow_right Nat.two_pos (by omega)
      rw [if_pos (by omega)]
      exact rightOf_of_power hk
    · rw [if_neg (by omega)]
      have htop := (rightOf_top hu hle hn).append (true :: BeeFish.write (k + 1)) [] []
      exact Or.inr (by simpa using htop)

/-- How two doubles are in order: the code of the smaller one is to the left
exactly where what is raised of it ends before the other one. -/
theorem rightOf_code (d : ℕ) : ∀ {d' : ℕ}, d < d' → d' ≤ 2 ^ 64 →
    if placed d + 2 ^ raised d ≤ placed d' then RightOf (code d) (code d')
    else code d = code d' ∨ RightOf (code d') (code d) := by
  induction d using Nat.strong_induction_on with
  | _ d ih =>
    intro d' hlt hle'
    obtain ⟨l, u, rfl, hu⟩ := exists_eq (show d' ≠ 0 by omega)
    by_cases h0 : d = 0
    · have hplaced := le_placed (2 ^ l + u)
      rw [h0, placed_zero, raised_zero, if_pos (by omega), code_zero]
      by_cases hn : Near (2 ^ l + u) (l + 1)
      · rw [code_of_near hu hle' hn]
        exact ⟨[], [], _, rfl, rfl⟩
      · rw [code_of_not_near hu hle' hn]
        exact ⟨[], [], _, rfl, rfl⟩
    obtain ⟨k, t, rfl, ht⟩ := exists_eq h0
    have hle : 2 ^ k + t ≤ 2 ^ 64 := hlt.le.trans hle'
    have hkl : k ≤ l := by
      by_contra hlk
      have hpow : 2 ^ (l + 1) ≤ 2 ^ k := Nat.pow_le_pow_right Nat.two_pos (by omega)
      rw [pow_succ] at hpow
      omega
    by_cases hnear : Near (2 ^ k + t) (k + 1)
    · exact rightOf_code_of_near ht hu hkl hlt hle' hnear
    rw [raised_eq ht hle, placed_eq ht hle, placed_eq hu hle', if_neg hnear, if_neg hnear,
      code_of_not_near ht hle hnear]
    have hadd := placed_add_le ht hnear
    by_cases hn : Near (2 ^ l + u) (l + 1)
    · have hdouble : 2 ^ (k + 1) = 2 * 2 ^ k := by ring
      have hpow : 2 ^ (k + 1) ≤ 2 ^ (l + 1) := Nat.pow_le_pow_right Nat.two_pos (by omega)
      rw [if_pos hn, code_of_near hu hle' hn, if_pos (by omega)]
      exact rightOf_of_power (by omega)
    rw [if_neg hn, code_of_not_near hu hle' hn]
    rcases hkl.lt_or_eq with hk | rfl
    · have hdouble : 2 ^ (k + 1) = 2 * 2 ^ k := by ring
      have hpow : 2 ^ (k + 1) ≤ 2 ^ l := Nat.pow_le_pow_right Nat.two_pos hk
      rw [if_pos (by omega)]
      exact rightOf_of_power hk
    · have htail := ih t (Nat.lt_add_of_pos_left (Nat.two_pow_pos k)) (show t < u by omega)
        (by omega)
      have hsame : 2 ^ k + placed t + 2 ^ raised t ≤ 2 ^ k + placed u ↔
        placed t + 2 ^ raised t ≤ placed u := by omega
      rw [if_congr hsame rfl rfl]
      split_ifs at htail ⊢ with hcond
      · exact rightOf_of_tail k htail
      · exact htail.imp (fun he => by rw [he]) (rightOf_of_tail k)

/-- What is raised of the double of the smaller number ends before the other one;
where nothing is raised, the double is smaller too. -/
def Kept (m n : ℕ) : Prop :=
  m < n → placed (toDouble m) + 2 ^ raised (toDouble m) ≤ placed (toDouble n)

instance (m n : ℕ) : Decidable (Kept m n) := inferInstanceAs (Decidable (_ → _))

theorem kept_iff {m n : ℕ} (hm : m < n) (hn : n < 2 ^ 64) : Kept m n ↔
    code (toDouble m) < code (toDouble n) := by
  have hle : toDouble m ≤ toDouble n := Binary.round_mono (by decide) hm.le
  have hcond : Kept m n ↔ placed (toDouble m) + 2 ^ raised (toDouble m) ≤ placed (toDouble n) :=
    ⟨fun h => h hm, fun h _ => h⟩
  rw [hcond]
  rcases hle.lt_or_eq with hlt | heq
  · have hcode := rightOf_code _ hlt (toDouble_le hn.le)
    split_ifs at hcode with h
    · exact iff_of_true h hcode.lt
    · refine iff_of_false h ?_
      rcases hcode with he | hright
      · rw [he]
        exact List.lt_irrefl _
      · exact List.lt_asymm hright.lt
  · rw [heq]
    refine iff_of_false (fun h => ?_) (List.lt_irrefl _)
    have := Nat.two_pow_pos (raised (toDouble n))
    omega

end PowerEncoding

open PowerEncoding

theorem returns_number {m : ℕ} (hm : m < 2 ^ 64) (hwritten : Written m) :
    Returns ((KeyValue.number m).write ·) (true :: code (toDouble m)) := by
  have hparts := returns_parts (KeyValue.number m).parts fun value hmem => by
    obtain rfl : value = m := by simpa [KeyValue.parts] using hmem
    exact ⟨hm, hwritten⟩
  rwa [KeyValue.parts, List.flatMap_singleton] at hparts

theorem returns_string (s : BString) : Returns ((KeyValue.string s).write ·) (encode s) := by
  have hparts :=
    returns_parts (KeyValue.string s).parts fun value hmem => by simp [KeyValue.parts] at hmem
  rwa [KeyValue.parts, List.flatMap_singleton] at hparts

theorem written_of_returns {m : ℕ} (hm : m < 2 ^ 64) {bits : List Bool}
    (h : Returns ((KeyValue.number m).write ·) bits) : Written m := by
  have hfits : (KeyValue.number m).Fits := fun value hmem => by
    obtain rfl : value = m := by simpa [KeyValue.parts] using hmem
    exact hm
  exact (KeyValue.returns_iff hfits).mp ⟨bits, h⟩ m List.mem_cons_self

/-- **The key encoding in order.** The codes of two numbers exist and are in the
order of the numbers exactly when both are written and what is raised of the double
of the smaller one ends before the other one. The codes of strings always are. -/
theorem order_iff {m n : ℕ} (hm : m < 2 ^ 64) (hn : n < 2 ^ 64) (s t : BString) :
    ((∃ u v, Returns ((KeyValue.number m).write ·) u ∧ Returns ((KeyValue.number n).write ·) v ∧
      (m < n ↔ u < v) ∧ (n < m ↔ v < u)) ↔ Written m ∧ Written n ∧ Kept m n ∧ Kept n m) ∧
    ∃ u v, Returns ((KeyValue.string s).write ·) u ∧ Returns ((KeyValue.string t).write ·) v ∧
      (s < t ↔ u < v) := by
  refine ⟨?_, _, _, returns_string s, returns_string t, encode_order.2 s t⟩
  have hcons : ∀ {u v : List Bool}, true :: u < true :: v ↔ u < v := by simp
  have hkept : ∀ {m n : ℕ}, n < 2 ^ 64 →
    (m < n → (Kept m n ↔ true :: code (toDouble m) < true :: code (toDouble n))) :=
    fun hn h => (kept_iff h hn).trans hcons.symm
  constructor
  · rintro ⟨u, v, hu, hv, hmn, hnm⟩
    have hwm := written_of_returns hm hu
    have hwn := written_of_returns hn hv
    obtain rfl := hu.unique (returns_number hm hwm)
    obtain rfl := hv.unique (returns_number hn hwn)
    exact ⟨hwm, hwn, fun h => (hkept hn h).mpr (hmn.mp h) h, fun h => (hkept hm h).mpr (hnm.mp h) h⟩
  · rintro ⟨hwm, hwn, hmn, hnm⟩
    refine ⟨_, _, returns_number hm hwm, returns_number hn hwn, ?_, ?_⟩
    · rcases Nat.lt_trichotomy m n with h | rfl | h
      · exact iff_of_true h ((hkept hn h).mp hmn)
      · exact iff_of_false (lt_irrefl m) (List.lt_irrefl _)
      · exact iff_of_false (lt_asymm h) (List.lt_asymm ((hkept hm h).mp hnm))
    · rcases Nat.lt_trichotomy n m with h | rfl | h
      · exact iff_of_true h ((hkept hm h).mp hnm)
      · exact iff_of_false (lt_irrefl n) (List.lt_irrefl _)
      · exact iff_of_false (lt_asymm h) (List.lt_asymm ((hkept hn h).mp hmn))

/-- Two long numbers whose doubles differ, the smaller one not exact. -/
theorem order_iff_long : ∃ u v, Returns ((KeyValue.number (2 ^ 53 + 1)).write ·) u ∧
    Returns ((KeyValue.number (2 ^ 53 + 2)).write ·) v ∧
    u < v := by
  obtain ⟨u, v, hu, hv, hlt, -⟩ := (order_iff (m := 2 ^ 53 + 1) (n := 2 ^ 53 + 2)
    (by decide) (by decide) [] []).1.mpr (by decide +kernel)
  exact ⟨u, v, hu, hv, hlt.mp (by decide)⟩

/-- Two numbers that are one double have one code. -/
theorem order_iff_same : ¬ ∀ m n : ℕ, m < 2 ^ 64 → n < 2 ^ 64 →
    ∃ u v, Returns ((KeyValue.number m).write ·) u ∧
    Returns ((KeyValue.number n).write ·) v ∧ (m < n ↔ u < v) := by
  intro h
  obtain ⟨u, v, hu, hv, hlt⟩ := h (2 ^ 53) (2 ^ 53 + 1) (by decide) (by decide)
  have hsame : toDouble (2 ^ 53 + 1) = toDouble (2 ^ 53) := by decide +kernel
  obtain rfl := hu.unique (returns_number (by decide) (by decide +kernel))
  have hv' := hv.unique (returns_number (by decide) (by decide +kernel))
  rw [hsame] at hv'
  rw [hv'] at hlt
  exact List.lt_irrefl _ (hlt.mp (by decide))

end BeeFish
