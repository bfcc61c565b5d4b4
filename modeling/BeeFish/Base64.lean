/-
# Base64

`Base64EncodeStream` (Miscellaneous/Base64.hpp) writes four characters for
three bytes, and at the end two or three characters and the padding for one or
two bytes. `Base64DecodeStream` collects four characters, with 64 for the
padding, and writes the bytes that are not padding. What was encoded decodes
to itself (`fromBase64_toBase64`).

Key definitions: `BString.toBase64`, `BString.fromBase64`.
-/
import BeeFish.Encoding

namespace BeeFish

namespace Base64

/-- `base64_chars_` -/
def base64Chars : BString := text "ABCDEFGHIJKLMNOPQRSTUVWXYZabcdefghijklmnopqrstuvwxyz0123456789+/"

def base64Char (sextet : ℕ) : UInt8 := base64Chars.getD sextet 0

/-- `encode_chunk` -/
def encodeChunk : BString → BString
  | [b1] => [base64Char (b1.toNat >>> 2), base64Char ((b1.toNat &&& 3) <<< 4 ||| 0 >>> 4), 61, 61]
  | [b1, b2] =>
    [base64Char (b1.toNat >>> 2), base64Char ((b1.toNat &&& 3) <<< 4 ||| b2.toNat >>> 4),
      base64Char ((b2.toNat &&& 15) <<< 2 ||| 0 >>> 6), 61]
  | b1 :: b2 :: b3 :: _ =>
    [base64Char (b1.toNat >>> 2), base64Char ((b1.toNat &&& 3) <<< 4 ||| b2.toNat >>> 4),
      base64Char ((b2.toNat &&& 15) <<< 2 ||| b3.toNat >>> 6), base64Char (b3.toNat &&& 63)]
  | [] => []

/-- `overflow` for each byte and `sync` at the end; the buffer holds less than
three bytes. -/
def encodeFrom : BString → BString → BString
  | [], [] => []
  | buffer, [] => encodeChunk buffer
  | buffer, c :: cs =>
    let buffer := buffer ++ [c]
    if buffer.length = 3 then encodeChunk buffer ++ encodeFrom [] cs else encodeFrom buffer cs

/-- `decodeChar`; none for an invalid character. -/
def decodeChar (c : UInt8) : Option ℕ :=
  if 65 ≤ c ∧ c ≤ 90 then some (c.toNat - 65)
  else if 97 ≤ c ∧ c ≤ 122 then some (c.toNat - 97 + 26)
  else if 48 ≤ c ∧ c ≤ 57 then some (c.toNat - 48 + 52)
  else if c = 43 then some 62
  else if c = 47 then some 63
  else if c = 61 then some 64
  else none

/-- The bytes of four sextets. -/
def decodeSextets : List ℕ → BString
  | [s0, s1, s2, s3] =>
    [UInt8.ofNat (s0 <<< 2 ||| s1 >>> 4)] ++
      (if s2 ≠ 64 then [UInt8.ofNat ((s1 &&& 15) <<< 4 ||| s2 >>> 2)] else []) ++
      if s3 ≠ 64 then [UInt8.ofNat ((s2 &&& 3) <<< 6 ||| s3)] else []
  | _ => []

/-- `decodeBase64Stream` for each character; none where it throws. -/
def decodeFrom : List ℕ → BString → Option BString
  | _, [] => some []
  | sextets, c :: cs => do
    let val ← decodeChar c
    let sextets := sextets ++ [val]
    if sextets.length = 4 then return decodeSextets sextets ++ (← decodeFrom [] cs)
      else decodeFrom sextets cs

end Base64

/-- `BString::toBase64` -/
def BString.toBase64 (data : BString) : BString := Base64.encodeFrom [] data

/-- `BString::fromBase64` -/
def BString.fromBase64 (base64 : BString) : Option BString := Base64.decodeFrom [] base64

namespace Base64

/-! ### Characters and sextets -/

theorem decodeChar_base64Char {sextet : ℕ} (h : sextet < 64) :
    decodeChar (base64Char sextet) = some sextet := by
  have key : ∀ s : Fin 64, decodeChar (base64Char s) = some s.val := by decide +kernel
  exact key ⟨sextet, h⟩

theorem decodeChar_padding : decodeChar 61 = some 64 := rfl

theorem shiftLeft_or {a b i : ℕ} (hb : b < 2 ^ i) : a <<< i ||| b = 2 ^ i * a + b := by
  rw [Nat.shiftLeft_eq, Nat.mul_comm, Nat.two_pow_add_eq_or_of_lt hb]

theorem and_three (a : ℕ) : a &&& 3 = a % 4 := Nat.and_two_pow_sub_one_eq_mod a 2

theorem and_sixtyThree (a : ℕ) : a &&& 63 = a % 64 := Nat.and_two_pow_sub_one_eq_mod a 6

theorem and_fifteen (a : ℕ) : a &&& 15 = a % 16 := Nat.and_two_pow_sub_one_eq_mod a 4

/-- The first two sextets of a chunk. -/
theorem sextet_one {b c : ℕ} (hc : c < 256) :
    (b &&& 3) <<< 4 ||| c >>> 4 = b % 4 * 16 + c / 16 := by
  rw [Nat.shiftRight_eq_div_pow, shiftLeft_or (by omega), and_three]
  omega

theorem sextet_two {b c : ℕ} (hc : c < 256) :
    (b &&& 15) <<< 2 ||| c >>> 6 = b % 16 * 4 + c / 64 := by
  rw [Nat.shiftRight_eq_div_pow, shiftLeft_or (by omega), and_fifteen]
  omega

theorem octet_zero {s t : ℕ} (ht : t < 64) : s <<< 2 ||| t >>> 4 = s * 4 + t / 16 := by
  rw [Nat.shiftRight_eq_div_pow, shiftLeft_or (by omega)]
  omega

theorem octet_one {s t : ℕ} (ht : t < 64) : (s &&& 15) <<< 4 ||| t >>> 2 = s % 16 * 16 + t / 4 := by
  rw [Nat.shiftRight_eq_div_pow, shiftLeft_or (by omega), and_fifteen]
  omega

theorem octet_two {s t : ℕ} (ht : t < 64) : (s &&& 3) <<< 6 ||| t = s % 4 * 64 + t := by
  rw [shiftLeft_or (by omega), and_three]
  omega

theorem ofNat_eq {n : ℕ} {b : UInt8} (h : n = b.toNat) : UInt8.ofNat n = b := by
  rw [h, UInt8.ofNat_toNat]

/-! ### Round trip -/

/-- Four characters of sextets decode at once. -/
theorem decodeFrom_four {c0 c1 c2 c3 : UInt8} {s0 s1 s2 s3 : ℕ} (h0 : decodeChar c0 = some s0)
    (h1 : decodeChar c1 = some s1) (h2 : decodeChar c2 = some s2) (h3 : decodeChar c3 = some s3)
    (cs : BString) :
    decodeFrom [] (c0 :: c1 :: c2 :: c3 :: cs) =
      (decodeFrom [] cs).map (decodeSextets [s0, s1, s2, s3] ++ ·) := by
  cases h : decodeFrom [] cs <;> simp [decodeFrom, h0, h1, h2, h3, h]

theorem toNat_lt (b : UInt8) : b.toNat < 256 := b.toNat_lt

theorem decodeFrom_chunk_three (b1 b2 b3 : UInt8) (cs : BString) :
    decodeFrom [] (encodeChunk [b1, b2, b3] ++ cs) =
      (decodeFrom [] cs).map ([b1, b2, b3] ++ ·) := by
  have hb1 := toNat_lt b1
  have hb2 := toNat_lt b2
  have hb3 := toNat_lt b3
  have e1 : b1.toNat >>> 2 = b1.toNat / 4 := by rw [Nat.shiftRight_eq_div_pow]
  have e4 : b3.toNat &&& 63 = b3.toNat % 64 := and_sixtyThree b3.toNat
  simp only [encodeChunk, e1, e4, sextet_one hb2, sextet_two hb3, List.cons_append, List.nil_append]
  rw [decodeFrom_four (decodeChar_base64Char (by omega)) (decodeChar_base64Char (by omega))
    (decodeChar_base64Char (by omega)) (decodeChar_base64Char (by omega))]
  have hs2 : b2.toNat % 16 * 4 + b3.toNat / 64 ≠ 64 := by omega
  have hs3 : b3.toNat % 64 ≠ 64 := by omega
  simp only [decodeSextets, ne_eq, hs2, hs3, not_false_eq_true, if_true]
  rw [octet_zero (by omega), octet_one (by omega), octet_two (by omega),
    ofNat_eq (b := b1) (by omega),
    ofNat_eq (b := b2) (by omega), ofNat_eq (b := b3) (by omega)]
  rfl

theorem decodeFrom_chunk_two (b1 b2 : UInt8) :
    decodeFrom [] (encodeChunk [b1, b2]) = some [b1, b2] := by
  have hb1 := toNat_lt b1
  have hb2 := toNat_lt b2
  have e1 : b1.toNat >>> 2 = b1.toNat / 4 := by rw [Nat.shiftRight_eq_div_pow]
  simp only [encodeChunk, e1, sextet_one hb2, sextet_two (by omega : 0 < 256)]
  rw [decodeFrom_four (decodeChar_base64Char (by omega)) (decodeChar_base64Char (by omega))
    (decodeChar_base64Char (by omega)) decodeChar_padding]
  have hs2 : b2.toNat % 16 * 4 + 0 / 64 ≠ 64 := by omega
  simp only [decodeSextets, ne_eq, hs2, not_false_eq_true, if_true]
  rw [octet_zero (by omega), octet_one (by omega), ofNat_eq (b := b1) (by omega),
    ofNat_eq (b := b2) (by omega)]
  rfl

theorem decodeFrom_chunk_one (b1 : UInt8) : decodeFrom [] (encodeChunk [b1]) = some [b1] := by
  have hb1 := toNat_lt b1
  have e1 : b1.toNat >>> 2 = b1.toNat / 4 := by rw [Nat.shiftRight_eq_div_pow]
  simp only [encodeChunk, e1, sextet_one (by omega : 0 < 256)]
  rw [decodeFrom_four (decodeChar_base64Char (by omega)) (decodeChar_base64Char (by omega))
    decodeChar_padding
    decodeChar_padding]
  simp only [decodeSextets, ne_eq, not_true_eq_false, if_false]
  rw [octet_zero (by omega), ofNat_eq (b := b1) (by omega)]
  rfl

theorem fromBase64_encodeFrom : ∀ data : BString, decodeFrom [] (encodeFrom [] data) = some data
  | [] => rfl
  | [b1] => decodeFrom_chunk_one b1
  | [b1, b2] => decodeFrom_chunk_two b1 b2
  | b1 :: b2 :: b3 :: data => by
    have h :
        encodeFrom [] (b1 :: b2 :: b3 :: data) =
          encodeChunk [b1, b2, b3] ++ encodeFrom [] data := by
      simp [encodeFrom]
    rw [h, decodeFrom_chunk_three, fromBase64_encodeFrom data]
    rfl

end Base64

/-- **Base64 decodes to what was encoded.** -/
theorem fromBase64_toBase64 (data : BString) : data.toBase64.fromBase64 = some data :=
  Base64.fromBase64_encodeFrom data

end BeeFish
