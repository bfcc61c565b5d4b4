/-
# Base64 in the browser

The client makes keys with the browser's `btoa` and reads them with `atob`.
`btoa` cuts the bits of the bytes into chunks of six; `atob` drops white space
and padding, puts the bits of the characters together and cuts them into
bytes, without the bits that are left. They are the base64 of the server
(`btoa_eq_toBase64`), and `atob` undoes `btoa` (`atob_btoa`).

Key definitions: `Client.chunks`, `Client.btoa`, `Client.atob`.
-/
import Mathlib.Tactic.Ring
import BeeFish.IdKey

namespace BeeFish

namespace Client

/-! ### Bits in chunks -/

/-- `parseInt(bits, 2)` -/
def parseBits (bits : List Bool) : ℕ := bits.foldl (fun value bit => 2 * value + bit.toNat) 0

/-- Bits filled up to `n` with zeros. -/
def fill (n : ℕ) (bits : List Bool) : List Bool := bits ++ List.replicate (n - bits.length) false

/-- Chunks of `n` bits, the last one filled up with zeros. -/
def chunks (n : ℕ) (bits : List Bool) : List (List Bool) :=
  (List.range ((bits.length + (n - 1)) / n)).map fun i => fill n ((bits.drop (n * i)).take n)

theorem chunks_nil {n : ℕ} (hn : 0 < n) : chunks n [] = [] := by
  have h : (n - 1) / n = 0 := Nat.div_eq_of_lt (by omega)
  simp [chunks, h]

theorem chunks_cons {n : ℕ} (hn : 0 < n) {bits : List Bool} (hb : bits ≠ []) :
    chunks n bits = fill n (bits.take n) :: chunks n (bits.drop n) := by
  have hpos : 0 < bits.length := List.length_pos_iff.mpr hb
  have hlen : (bits.length + (n - 1)) / n = ((bits.drop n).length + (n - 1)) / n + 1 := by
    rw [List.length_drop]
    rcases Nat.lt_or_ge bits.length n with h | h
    · have h0 : bits.length - n = 0 := by omega
      have h1 : bits.length + (n - 1) = (bits.length - 1) + n := by omega
      rw [h0, Nat.zero_add, Nat.div_eq_of_lt (by omega : n - 1 < n), h1, Nat.add_div_right _ hn,
        Nat.div_eq_of_lt (by omega)]
    · have h1 : bits.length + (n - 1) = bits.length - n + (n - 1) + n := by omega
      rw [h1, Nat.add_div_right _ hn]
  rw [chunks, chunks, hlen, List.range_succ_eq_map, List.map_cons, List.map_map]
  congr 1
  refine List.map_congr_left fun i _ => ?_
  rw [Function.comp_apply, List.drop_drop, Nat.mul_succ, Nat.add_comm]

@[simp] theorem length_chunks (n : ℕ) (bits : List Bool) :
    (chunks n bits).length = (bits.length + (n - 1)) / n := by
  simp [chunks]

theorem length_of_mem_chunks {n : ℕ} {bits chunk : List Bool} (h : chunk ∈ chunks n bits) :
    chunk.length = n := by
  obtain ⟨i, -, rfl⟩ := List.mem_map.mp h
  simp only [fill, List.length_append, List.length_replicate, List.length_take]
  omega

/-- The chunks hold the bits, and less than a chunk of zeros after them. -/
theorem flatten_chunks {n : ℕ} (hn : 0 < n) (bits : List Bool) :
    ∃ k, k < n ∧ (chunks n bits).flatten = bits ++ List.replicate k false := by
  induction h : bits.length using Nat.strong_induction_on generalizing bits with
  | _ l ih =>
    by_cases hb : bits = []
    · exact ⟨0, hn, by simp [hb, chunks_nil hn]⟩
    · have hpos : 0 < bits.length := List.length_pos_iff.mpr hb
      rw [chunks_cons hn hb, List.flatten_cons, fill]
      rcases Nat.lt_or_ge bits.length n with hlt | hge
      · refine ⟨n - bits.length, by omega, ?_⟩
        rw [List.drop_eq_nil_of_le hlt.le, List.take_of_length_le hlt.le, chunks_nil hn]
        simp
      · obtain ⟨k, hk, he⟩ := ih (bits.drop n).length (by rw [List.length_drop]; omega)
          (bits.drop n) rfl
        refine ⟨k, hk, ?_⟩
        rw [he, List.length_take, Nat.min_eq_left hge, Nat.sub_self, List.replicate_zero,
          List.append_nil,
          ← List.append_assoc, List.take_append_drop]

/-! ### Values of bits -/

theorem foldl_bits (v : List Bool) : ∀ n : ℕ,
    v.foldl (fun value bit => 2 * value + bit.toNat) n = n * 2 ^ v.length + parseBits v := by
  induction v with
  | nil => simp [parseBits]
  | cons b v ih =>
    intro n
    have hb : parseBits (b :: v) = (2 * 0 + b.toNat) * 2 ^ v.length + parseBits v := ih _
    rw [List.foldl_cons, ih, hb, List.length_cons, pow_succ]
    ring

theorem parseBits_append (u v : List Bool) :
    parseBits (u ++ v) = parseBits u * 2 ^ v.length + parseBits v := by
  rw [parseBits, List.foldl_append, foldl_bits]
  rfl

theorem parseBits_lt : ∀ bits : List Bool, parseBits bits < 2 ^ bits.length
  | [] => by decide
  | b :: bits => by
    have h := parseBits_append [b] bits
    have hb : parseBits [b] ≤ 1 := by cases b <;> decide
    have ih := parseBits_lt bits
    have hm : parseBits [b] * 2 ^ bits.length ≤ 1 * 2 ^ bits.length := Nat.mul_le_mul_right _ hb
    rw [List.singleton_append] at h
    rw [h, List.length_cons, pow_succ]
    omega

/-! ### `btoa` and `atob` -/

/-- The alphabet of base64. -/
def alphabet : BString :=
  (List.range 26).map (fun i => UInt8.ofNat (65 + i)) ++
    (List.range 26).map (fun i => UInt8.ofNat (97 + i)) ++
    (List.range 10).map (fun i => UInt8.ofNat (48 + i)) ++ [43, 47]

/-- `btoa` -/
def btoa (data : BString) : BString :=
  (chunks 6 (data.flatMap bitset)).map (fun chunk => alphabet.getD (parseBits chunk) 0) ++
    List.replicate ((3 - data.length % 3) % 3) 61

/-- White space of ASCII. -/
def isSpace (c : UInt8) : Bool := c ∈ [9, 10, 12, 13, 32]

/-- Base64 without one or two `=` at its end, where its length divides by four. -/
def removePadding (data : BString) : BString :=
  if data.length % 4 ≠ 0 then data
  else if data.drop (data.length - 2) = [61, 61] then data.take (data.length - 2)
  else if data.drop (data.length - 1) = [61] then data.take (data.length - 1)
  else data

/-- The six bits of a character; none if it is not in the alphabet. -/
def sextet (c : UInt8) : Option (List Bool) :=
  if alphabet.idxOf c < 64 then
    some ((List.range 6).map fun i => (alphabet.idxOf c).testBit (5 - i))
  else none

/-- The whole bytes of some bits. -/
def wholeBytes (bits : List Bool) : BString :=
  (List.range (bits.length / 8)).map fun i => toByte ((bits.drop (8 * i)).take 8)

/-- `atob`; none where it throws. -/
def atob (data : BString) : Option BString := do
  let data := removePadding (data.filter fun c => !isSpace c)
  if data.length % 4 = 1 then none
  else
    let sextets ← data.mapM sextet
    return wholeBytes sextets.flatten

/-! ### The same base64 -/

theorem alphabet_eq : alphabet = Base64.base64Chars := by decide +kernel

theorem toByte_bitset (b : UInt8) : toByte (bitset b) = b := by
  have key : ∀ n : Fin 256, toByte (bitset (UInt8.ofNat n)) = UInt8.ofNat n := by decide +kernel
  have h := key ⟨b.toNat, b.toNat_lt⟩
  rwa [UInt8.ofNat_toNat] at h

/-- The bits of a byte from `i` on. -/
theorem parseBits_bitset (b : UInt8) :
    parseBits ((bitset b).take 6) = b.toNat >>> 2 ∧ parseBits ((bitset b).drop 6) = b.toNat % 4 ∧
    parseBits ((bitset b).take 4) = b.toNat / 16 ∧ parseBits ((bitset b).drop 4) = b.toNat % 16 ∧
    parseBits ((bitset b).take 2) = b.toNat / 64 ∧
      parseBits ((bitset b).drop 2) = b.toNat % 64 := by
  have key : ∀ n : Fin 256, parseBits ((bitset (UInt8.ofNat n)).take 6) = n.val >>> 2 ∧
      parseBits ((bitset (UInt8.ofNat n)).drop 6) = n.val % 4 ∧
      parseBits ((bitset (UInt8.ofNat n)).take 4) = n.val / 16 ∧
      parseBits ((bitset (UInt8.ofNat n)).drop 4) = n.val % 16 ∧
      parseBits ((bitset (UInt8.ofNat n)).take 2) = n.val / 64 ∧
      parseBits ((bitset (UInt8.ofNat n)).drop 2) = n.val % 64 := by decide +kernel
  have h := key ⟨b.toNat, b.toNat_lt⟩
  rwa [UInt8.ofNat_toNat] at h

@[simp] theorem length_bitset (b : UInt8) : (bitset b).length = 8 := rfl

theorem chunks_append {n : ℕ} (hn : 0 < n) {u : List Bool} (hu : u.length = n) (v : List Bool) :
    chunks n (u ++ v) = u :: chunks n v := by
  have hne : u ++ v ≠ [] := by
    intro h
    have := congrArg List.length h
    rw [List.length_append, List.length_nil] at this
    omega
  rw [chunks_cons hn hne, List.take_left' hu, List.drop_left' hu, fill, hu, Nat.sub_self]
  simp

theorem chunks_last {n : ℕ} (hn : 0 < n) {u : List Bool} (hu : u ≠ []) (hl : u.length ≤ n) :
    chunks n u = [fill n u] := by
  rw [chunks_cons hn hu, List.take_of_length_le hl, List.drop_eq_nil_of_le hl, chunks_nil hn]

/-- The four chunks of three bytes. -/
theorem chunks_three (b1 b2 b3 : UInt8) (v : List Bool) :
    chunks 6 (bitset b1 ++ (bitset b2 ++ (bitset b3 ++ v))) =
      (bitset b1).take 6 ::
        ((bitset b1).drop 6 ++ (bitset b2).take 4) ::
        ((bitset b2).drop 4 ++ (bitset b3).take 2) :: (bitset b3).drop 2 :: chunks 6 v := by
  have hbits : bitset b1 ++ (bitset b2 ++ (bitset b3 ++ v)) =
      (bitset b1).take 6 ++ (((bitset b1).drop 6 ++ (bitset b2).take 4) ++
        (((bitset b2).drop 4 ++ (bitset b3).take 2) ++ ((bitset b3).drop 2 ++ v))) := by
    conv_lhs => rw [← List.take_append_drop 6 (bitset b1), ← List.take_append_drop 4 (bitset b2),
      ← List.take_append_drop 2 (bitset b3)]
    simp only [List.append_assoc]
  rw [hbits, chunks_append (by decide) (by simp), chunks_append (by decide) (by simp),
    chunks_append (by decide) (by simp),
    chunks_append (by decide) (by simp)]

theorem chunks_two (b1 b2 : UInt8) :
    chunks 6 (bitset b1 ++ bitset b2) =
      [(bitset b1).take 6, (bitset b1).drop 6 ++ (bitset b2).take 4, (bitset b2).drop 4 ++
        [false, false]] := by
  have hbits : bitset b1 ++ bitset b2 =
      (bitset b1).take 6 ++ (((bitset b1).drop 6 ++ (bitset b2).take 4) ++ (bitset b2).drop 4) := by
    conv_lhs => rw [← List.take_append_drop 6 (bitset b1), ← List.take_append_drop 4 (bitset b2)]
    simp only [List.append_assoc]
  have hne : (bitset b2).drop 4 ≠ [] := List.ne_nil_of_length_pos (by simp)
  rw [hbits, chunks_append (by decide) (by simp), chunks_append (by decide) (by simp),
    chunks_last (by decide) hne (by simp)]
  rfl

theorem chunks_one (b1 : UInt8) :
    chunks 6 (bitset b1) =
      [(bitset b1).take 6, (bitset b1).drop 6 ++ [false, false, false, false]] := by
  have hne : (bitset b1).drop 6 ≠ [] := List.ne_nil_of_length_pos (by simp)
  conv_lhs => rw [← List.take_append_drop 6 (bitset b1)]
  rw [chunks_append (by decide) (by simp), chunks_last (by decide) hne (by simp)]
  rfl

open Base64 in
/-- `btoa` is the base64 of the server. -/
theorem btoa_eq_toBase64 : ∀ data : BString, btoa data = data.toBase64
  | [] => rfl
  | [b1] => by
    obtain ⟨h1, h2, -⟩ := parseBits_bitset b1
    have hz : parseBits ((bitset b1).drop 6 ++ [false, false, false, false]) = (b1.toNat &&& 3)
      <<< 4 ||| 0 >>> 4 := by
      rw [parseBits_append, h2, sextet_one (by decide)]
      rfl
    simp only [btoa, List.flatMap_cons, List.flatMap_nil, List.append_nil, chunks_one,
      List.map_cons, List.map_nil, h1, hz,
      alphabet_eq]
    rfl
  | [b1, b2] => by
    obtain ⟨h1, h2, -⟩ := parseBits_bitset b1
    obtain ⟨-, -, h3, h4, -⟩ := parseBits_bitset b2
    have hs : parseBits ((bitset b1).drop 6 ++ (bitset b2).take 4) = (b1.toNat &&& 3)
      <<< 4 ||| b2.toNat >>> 4 := by
      rw [parseBits_append, h2, h3, sextet_one b2.toNat_lt]
      rfl
    have hz : parseBits ((bitset b2).drop 4 ++ [false, false]) = (b2.toNat &&& 15)
      <<< 2 ||| 0 >>> 6 := by
      rw [parseBits_append, h4, sextet_two (by decide)]
      rfl
    simp only [btoa, List.flatMap_cons, List.flatMap_nil, List.append_nil, chunks_two,
      List.map_cons, List.map_nil, h1, hs,
      hz, alphabet_eq]
    rfl
  | b1 :: b2 :: b3 :: data => by
    obtain ⟨h1, h2, -⟩ := parseBits_bitset b1
    obtain ⟨-, -, h3, h4, -⟩ := parseBits_bitset b2
    obtain ⟨-, -, -, -, h5, h6⟩ := parseBits_bitset b3
    have hs : parseBits ((bitset b1).drop 6 ++ (bitset b2).take 4) = (b1.toNat &&& 3)
      <<< 4 ||| b2.toNat >>> 4 := by
      rw [parseBits_append, h2, h3, sextet_one b2.toNat_lt]
      rfl
    have ht : parseBits ((bitset b2).drop 4 ++ (bitset b3).take 2) = (b2.toNat &&& 15)
      <<< 2 ||| b3.toNat >>> 6 := by
      rw [parseBits_append, h4, h5, sextet_two b3.toNat_lt]
      rfl
    have h6' : parseBits ((bitset b3).drop 2) = b3.toNat &&& 63 :=
      h6.trans (and_sixtyThree b3.toNat).symm
    have hpad : (3 - (b1 :: b2 :: b3 :: data).length % 3) % 3 = (3 - data.length % 3) % 3 := by
      simp only [List.length_cons]
      omega
    have hrest : btoa data = BString.toBase64 data := btoa_eq_toBase64 data
    have hstep :
        BString.toBase64 (b1 :: b2 :: b3 :: data) =
          encodeChunk [b1, b2, b3] ++ BString.toBase64 data := by
      simp [BString.toBase64, encodeFrom]
    rw [hstep, ← hrest, btoa, hpad, List.flatMap_cons, List.flatMap_cons, List.flatMap_cons,
      chunks_three]
    simp only [List.map_cons, h1, hs, ht, h6', alphabet_eq]
    rfl

/-! ### `atob` undoes `btoa` -/

/-- A character of the alphabet is no white space, no padding, and gives its
bits back. -/
theorem alphabet_char {bits : List Bool} (h : bits.length = 6) :
    isSpace (alphabet.getD (parseBits bits) 0) = false ∧ alphabet.getD (parseBits bits) 0 ≠ 61 ∧
      sextet (alphabet.getD (parseBits bits) 0) = some bits := by
  have key : ∀ b0 b1 b2 b3 b4 b5 : Bool,
      isSpace (alphabet.getD (parseBits [b0, b1, b2, b3, b4, b5]) 0) = false ∧
      alphabet.getD (parseBits [b0, b1, b2, b3, b4, b5]) 0 ≠ 61 ∧
      sextet (alphabet.getD (parseBits [b0, b1, b2, b3, b4, b5]) 0) =
        some [b0, b1, b2, b3, b4, b5] := by
    decide +kernel
  match bits, h with
  | [b0, b1, b2, b3, b4, b5], _ => exact key b0 b1 b2 b3 b4 b5

theorem removePadding_append {cs : BString} {k : ℕ} (hcs : 61 ∉ cs) (hk : k ≤ 2)
    (hl : (cs.length + k) % 4 = 0) :
    removePadding (cs ++ List.replicate k 61) = cs := by
  have hlen : (cs ++ List.replicate k 61).length % 4 = 0 := by simpa using hl
  have hmem : ∀ n, 61 ∉ cs.drop n := fun n h => hcs (List.mem_of_mem_drop h)
  rw [removePadding, if_neg (not_not.mpr hlen)]
  rcases (by omega : k = 0 ∨ k = 1 ∨ k = 2) with rfl | rfl | rfl
  · rw [List.replicate_zero, List.append_nil, if_neg, if_neg]
    · exact fun h => hmem (cs.length - 1) (by rw [h]; decide)
    · exact fun h => hmem (cs.length - 2) (by rw [h]; decide)
  · have hpos : 0 < cs.length := by omega
    have h1 : (cs ++ List.replicate 1 61).length - 1 = cs.length := by simp
    have h2 : (cs ++ List.replicate 1 61).length - 2 = cs.length - 1 := by simp
    have hd : (cs ++ List.replicate 1 61).drop cs.length = [61] := List.drop_left
    rw [h1, h2, if_neg, if_pos hd, List.take_left]
    rw [List.drop_append_of_le_length (by omega)]
    intro h
    have hd : 61 ∈ cs.drop (cs.length - 1) := by
      cases hc : cs.drop (cs.length - 1) with
      | nil => simp [hc] at h
      | cons a rest =>
        rw [hc, List.cons_append] at h
        rw [(List.cons.inj h).1]
        exact List.mem_cons_self
    exact hmem _ hd
  · have h2 : (cs ++ List.replicate 2 61).length - 2 = cs.length := by simp
    have hd : (cs ++ List.replicate 2 61).drop cs.length = [61, 61] := List.drop_left
    rw [h2, if_pos hd, List.take_left]

theorem wholeBytes_short {bits : List Bool} (h : bits.length < 8) : wholeBytes bits = [] := by
  rw [wholeBytes, Nat.div_eq_of_lt h, List.range_zero, List.map_nil]

theorem wholeBytes_bitset (b : UInt8) (bits : List Bool) :
    wholeBytes (bitset b ++ bits) = b :: wholeBytes bits := by
  have hl : (bitset b ++ bits).length / 8 = bits.length / 8 + 1 := by
    rw [List.length_append, length_bitset, Nat.add_comm, Nat.add_div_right _ (by decide)]
  rw [wholeBytes, hl, List.range_succ_eq_map, List.map_cons, List.map_map]
  refine congrArg₂ List.cons ?_ (List.map_congr_left fun i _ => ?_)
  · rw [Nat.mul_zero, List.drop_zero, List.take_left' (length_bitset b), toByte_bitset]
  · rw [Function.comp_apply, Nat.mul_succ, Nat.add_comm, ← List.drop_drop,
      List.drop_left' (length_bitset b)]

theorem wholeBytes_flatMap {v : List Bool} (hv : v.length < 8) : ∀ data : BString,
    wholeBytes (data.flatMap bitset ++ v) = data
  | [] => wholeBytes_short hv
  | b :: data => by
    rw [List.flatMap_cons, List.append_assoc, wholeBytes_bitset, wholeBytes_flatMap hv data]

theorem mapM_sextet : ∀ {cs : List (List Bool)}, (∀ chunk ∈ cs, chunk.length = 6) →
    (cs.map fun chunk => alphabet.getD (parseBits chunk) 0).mapM sextet = some cs
  | [], _ => rfl
  | chunk :: cs, h => by
    rw [List.map_cons, List.mapM_cons, (alphabet_char (h chunk List.mem_cons_self)).2.2,
      mapM_sextet fun c hc => h c (List.mem_cons_of_mem _ hc)]
    rfl

theorem length_flatMap_bitset (data : BString) :
    (data.flatMap bitset).length = 8 * data.length := by
  induction data with
  | nil => rfl
  | cons b data ih =>
    rw [List.flatMap_cons, List.length_append, ih, length_bitset, List.length_cons]; omega

/-- The characters of `n` bytes with their padding come in fours, and there is
never one left. -/
theorem length_mod (n : ℕ) :
    ((8 * n + (6 - 1)) / 6 + (3 - n % 3) % 3) % 4 = 0 ∧ ¬ (8 * n + (6 - 1)) / 6 % 4 = 1 := by
  obtain ⟨q, rfl | rfl | rfl⟩ : ∃ q, n = 3 * q ∨ n = 3 * q + 1 ∨ n = 3 * q + 2 := ⟨n / 3, by omega⟩
  · have h1 : (8 * (3 * q) + (6 - 1)) / 6 = 4 * q := by omega
    have h2 : (3 - 3 * q % 3) % 3 = 0 := by omega
    omega
  · have h1 : (8 * (3 * q + 1) + (6 - 1)) / 6 = 4 * q + 2 := by omega
    have h2 : (3 - (3 * q + 1) % 3) % 3 = 2 := by omega
    omega
  · have h1 : (8 * (3 * q + 2) + (6 - 1)) / 6 = 4 * q + 3 := by omega
    have h2 : (3 - (3 * q + 2) % 3) % 3 = 1 := by omega
    omega

/-- `atob` undoes `btoa`. -/
theorem atob_btoa (data : BString) : atob (btoa data) = some data := by
  have hlen : ∀ chunk ∈ chunks 6 (data.flatMap bitset), chunk.length = 6 :=
    fun _ h => length_of_mem_chunks h
  obtain ⟨k, hk, hflat⟩ := flatten_chunks (by decide : 0 < 6) (data.flatMap bitset)
  have hcount := length_chunks 6 (data.flatMap bitset)
  rw [length_flatMap_bitset] at hcount
  have hmod := length_mod data.length
  have hspace : (btoa data).filter (fun c => !isSpace c) = btoa data := by
    rw [List.filter_eq_self]
    intro c hc
    rcases List.mem_append.mp hc with hc | hc
    · obtain ⟨chunk, hm, rfl⟩ := List.mem_map.mp hc
      rw [(alphabet_char (hlen chunk hm)).1]
      rfl
    · rw [(List.mem_replicate.mp hc).2]
      rfl
  have hpad : removePadding (btoa data) =
      (chunks 6 (data.flatMap bitset)).map fun chunk => alphabet.getD (parseBits chunk) 0 := by
    refine removePadding_append ?_ (by omega) ?_
    · intro hm
      obtain ⟨chunk, hm, he⟩ := List.mem_map.mp hm
      exact (alphabet_char (hlen chunk hm)).2.1 he
    · rw [List.length_map, hcount]
      exact hmod.1
  have hone : ¬ (chunks 6 (data.flatMap bitset)).length % 4 = 1 := by
    rw [hcount]
    exact hmod.2
  simp only [atob, hspace, hpad, List.length_map, if_neg hone, mapM_sextet hlen,
    Option.bind_eq_bind, Option.bind_some,
    hflat]
  exact congrArg some (wholeBytes_flatMap (by simpa using by omega) data)

end Client

end BeeFish
