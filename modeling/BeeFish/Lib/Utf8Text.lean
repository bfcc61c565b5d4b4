/-
# Text as UTF-8 bytes

`encode` writes the characters of a text as their UTF-8 bytes. `decode` reads
bytes one by one, as a decoder of a stream does: it keeps how many bytes the
character still needs, what it has of the code point and where the next byte
has to lie, and what is not a character becomes the replacement character. A
text is decoded from its bytes (`decode_encode`).

Key definitions: `Utf8.encode`, `Utf8.Decoder`, `Utf8.decode`.
-/
import BeeFish.Lib.Utf8

namespace Utf8

/-- The bytes of a text. -/
def encode (cs : List Char) : Bytes := cs.flatMap String.utf8EncodeChar

/-- U+FFFD -/
def replacement : Char := Char.ofNat 0xFFFD

/-- How many bytes the character still needs, the code point so far and the
bounds of the next byte. -/
structure Decoder where
  needed : ℕ
  codepoint : ℕ
  lower : ℕ
  upper : ℕ

namespace Decoder

/-- Between two characters. -/
def initial : Decoder := ⟨0, 0, 0x80, 0xBF⟩

/-- The byte a character starts with. -/
def start (b : ℕ) : List Char × Decoder :=
  if b ≤ 0x7F then ([Char.ofNat b], initial)
  else if 0xC2 ≤ b ∧ b ≤ 0xDF then ([], ⟨1, b % 32, 0x80, 0xBF⟩)
  else if 0xE0 ≤ b ∧ b ≤ 0xEF then
    ([], ⟨2, b % 16, if b = 0xE0 then 0xA0 else 0x80, if b = 0xED then 0x9F else 0xBF⟩)
  else if 0xF0 ≤ b ∧ b ≤ 0xF4 then
    ([], ⟨3, b % 8, if b = 0xF0 then 0x90 else 0x80, if b = 0xF4 then 0x8F else 0xBF⟩)
  else ([replacement], initial)

/-- One byte; one that cannot come next ends the character before it and is
read again. -/
def step (d : Decoder) (b : ℕ) : List Char × Decoder :=
  if d.needed = 0 then start b
  else if b < d.lower ∨ d.upper < b then (replacement :: (start b).1, (start b).2)
  else if d.needed = 1 then ([Char.ofNat (d.codepoint * 64 + b % 64)], initial)
  else ([], ⟨d.needed - 1, d.codepoint * 64 + b % 64, 0x80, 0xBF⟩)

end Decoder

/-- The characters of the bytes that come to a decoder. -/
def decodeFrom (d : Decoder) : Bytes → List Char
  | [] => if d.needed = 0 then [] else [replacement]
  | b :: bytes => (d.step b.toNat).1 ++ decodeFrom (d.step b.toNat).2 bytes

def decode (bytes : Bytes) : List Char := decodeFrom .initial bytes

/-! ### Round trip -/

open Decoder

theorem decodeFrom_cons {d d' : Decoder} {b : ℕ} (hb : b < 256) {out : List Char}
    (h : d.step b = (out, d'))
    (bytes : Bytes) : decodeFrom d (UInt8.ofNat b :: bytes) = out ++ decodeFrom d' bytes := by
  have hn : (UInt8.ofNat b).toNat = b := by simp; omega
  rw [decodeFrom, hn, h]

theorem step_initial (b : ℕ) : step .initial b = start b := rfl

/-- The last byte of a character. -/
theorem decodeFrom_last {v lower upper : ℕ} (hl : lower ≤ v % 0x40 + 0x80)
    (hu : v % 0x40 + 0x80 ≤ upper) (bytes : Bytes) :
    decodeFrom ⟨1, v / 64, lower, upper⟩ (UInt8.ofNat (v % 0x40 + 0x80) :: bytes) =
      Char.ofNat v :: decodeFrom .initial bytes := by
  have hb : ¬ (v % 0x40 + 0x80 < lower ∨ upper < v % 0x40 + 0x80) := by omega
  have hv : v / 64 * 64 + (v % 0x40 + 0x80) % 64 = v := by omega
  have hs : step ⟨1, v / 64, lower, upper⟩ (v % 0x40 + 0x80) = ([Char.ofNat v], initial) := by
    simp only [step, Nat.one_ne_zero, if_false, if_neg hb, if_true, hv]
  exact decodeFrom_cons (by omega) hs bytes

/-- The last two bytes of a character. -/
theorem decodeFrom_last_two {v lower upper : ℕ} (hl : lower ≤ v / 64 % 0x40 + 0x80)
    (hu : v / 64 % 0x40 + 0x80 ≤ upper)
    (bytes : Bytes) :
    decodeFrom ⟨2, v / 4096, lower, upper⟩
      (UInt8.ofNat (v / 64 % 0x40 + 0x80) :: UInt8.ofNat (v % 0x40 + 0x80) :: bytes) =
      Char.ofNat v :: decodeFrom .initial bytes := by
  have hb : ¬ (v / 64 % 0x40 + 0x80 < lower ∨ upper < v / 64 % 0x40 + 0x80) := by omega
  have hv : v / 4096 * 64 + (v / 64 % 0x40 + 0x80) % 64 = v / 64 := by omega
  have hs :
      step ⟨2, v / 4096, lower, upper⟩ (v / 64 % 0x40 + 0x80) = ([], ⟨1, v / 64, 0x80, 0xBF⟩) := by
    simp only [step, Nat.succ_ne_zero, if_false, if_neg hb, hv]
    rfl
  rw [decodeFrom_cons (by omega) hs, decodeFrom_last (by omega) (by omega)]
  rfl

/-- The last three bytes of a character. -/
theorem decodeFrom_last_three {v lower upper : ℕ} (hl : lower ≤ v / 4096 % 0x40 + 0x80)
    (hu : v / 4096 % 0x40 + 0x80 ≤ upper) (bytes : Bytes) :
    decodeFrom ⟨3, v / 262144, lower, upper⟩
        (UInt8.ofNat (v / 4096 % 0x40 + 0x80) :: UInt8.ofNat (v / 64 % 0x40 + 0x80) ::
          UInt8.ofNat (v % 0x40 + 0x80) :: bytes) =
      Char.ofNat v :: decodeFrom .initial bytes := by
  have hb : ¬ (v / 4096 % 0x40 + 0x80 < lower ∨ upper < v / 4096 % 0x40 + 0x80) := by omega
  have hv : v / 262144 * 64 + (v / 4096 % 0x40 + 0x80) % 64 = v / 4096 := by omega
  have hs : step ⟨3, v / 262144, lower, upper⟩ (v / 4096 % 0x40 + 0x80) =
    ([], ⟨2, v / 4096, 0x80, 0xBF⟩) := by
    simp only [step, Nat.succ_ne_zero, if_false, if_neg hb, hv]
    rfl
  rw [decodeFrom_cons (by omega) hs, decodeFrom_last_two (by omega) (by omega)]
  rfl

theorem start_two {b : ℕ} (h : 0xC2 ≤ b ∧ b ≤ 0xDF) : start b = ([], ⟨1, b % 32, 0x80, 0xBF⟩) := by
  have h7 : ¬ b ≤ 0x7F := by omega
  simp only [start, if_neg h7, if_pos h]

theorem start_three {b : ℕ} (h : 0xE0 ≤ b ∧ b ≤ 0xEF) :
    start b =
      ([], ⟨2, b % 16, if b = 0xE0 then 0xA0 else 0x80, if b = 0xED then 0x9F else 0xBF⟩) := by
  have h7 : ¬ b ≤ 0x7F := by omega
  have h2 : ¬ (0xC2 ≤ b ∧ b ≤ 0xDF) := by omega
  simp only [start, if_neg h7, if_neg h2, if_pos h]

theorem start_four {b : ℕ} (h : 0xF0 ≤ b ∧ b ≤ 0xF4) :
    start b =
      ([], ⟨3, b % 8, if b = 0xF0 then 0x90 else 0x80, if b = 0xF4 then 0x8F else 0xBF⟩) := by
  have h7 : ¬ b ≤ 0x7F := by omega
  have h2 : ¬ (0xC2 ≤ b ∧ b ≤ 0xDF) := by omega
  have h3 : ¬ (0xE0 ≤ b ∧ b ≤ 0xEF) := by omega
  simp only [start, if_neg h7, if_neg h2, if_neg h3, if_pos h]

/-- The code points that are characters. -/
theorem codepoint_bounds (c : Char) :
    c.val.toNat < 0xD800 ∨ (0xDFFF < c.val.toNat ∧ c.val.toNat < 0x110000) :=
  c.valid

theorem decodeFrom_char (c : Char) (bytes : Bytes) :
    decodeFrom .initial (String.utf8EncodeChar c ++ bytes) = c :: decodeFrom .initial bytes := by
  have hv := codepoint_bounds c
  have hc : Char.ofNat c.val.toNat = c := Char.ofNat_toNat c
  simp only [String.utf8EncodeChar]
  generalize c.val.toNat = v at hv hc
  subst hc
  -- by the number of bytes
  split
  · next h1 =>
    have hs : step .initial v = ([Char.ofNat v], initial) := (step_initial v).trans (if_pos h1)
    exact decodeFrom_cons (by omega) hs _
  split
  · next h1 h2 =>
    have hs : step .initial (v / 64 % 0x20 + 0xc0) = ([], ⟨1, v / 64, 0x80, 0xBF⟩) := by
      have hm : (v / 64 % 0x20 + 0xc0) % 32 = v / 64 := by omega
      rw [step_initial, start_two (by omega), hm]
    rw [List.cons_append, decodeFrom_cons (by omega) hs, List.cons_append,
      decodeFrom_last (by omega) (by omega)]
    rfl
  split
  · next h1 h2 h3 =>
    have hm : (v / 4096 % 0x10 + 0xe0) % 16 = v / 4096 := by omega
    have hs := (step_initial _).trans (start_three (b := v / 4096 % 0x10 + 0xe0) (by omega))
    rw [hm] at hs
    rw [List.cons_append, decodeFrom_cons (by omega) hs, List.cons_append, List.cons_append,
      decodeFrom_last_two (by split <;> omega) (by split <;> omega)]
    rfl
  · next h1 h2 h3 =>
    have hm : (v / 262144 % 0x08 + 0xf0) % 8 = v / 262144 := by omega
    have hs := (step_initial _).trans (start_four (b := v / 262144 % 0x08 + 0xf0) (by omega))
    rw [hm] at hs
    rw [List.cons_append, decodeFrom_cons (by omega) hs, List.cons_append, List.cons_append,
      List.cons_append, decodeFrom_last_three (by split <;> omega) (by split <;> omega)]
    rfl

/-- A text is decoded from its bytes. -/
theorem decode_encode (cs : List Char) : decode (encode cs) = cs := by
  induction cs with
  | nil => rfl
  | cons c cs ih =>
    rw [encode, List.flatMap_cons, decode, decodeFrom_char]
    exact congrArg (c :: ·) ih

end Utf8
