/-
# Power encoding

How keys are written as bits (power-encoding/power-encoding-base.h,
power-encoding/encoding.h, Id/Id.hpp) and read back from a `Stack`. A number
is a zero, or a one and then the position of its highest bit and the rest
below it; `operator <<` puts a one in front, so that what it writes is a
balanced code (`LawfulEncoded.isCode`), whatever is written: numbers, byte
strings, timestamps, ids, or the bits of another stack. Reading a code gives
the value back and consumes exactly the code (`LawfulEncoded.decode_encode`).

An `Index` of the source is a natural number here, and `floor(log2(n))` and
`exp2(n)` are exact. The source has `double` there, which makes no difference
below 2^49 - 1 (`PowerEncoding.returns_write_of_lt`) but above (`balanced_iff`,
`order_iff`, `fromKey_iff`).
-/
import Mathlib.Algebra.Ring.Nat
import BeeFish.Stack

namespace BeeFish

open BitCode

/-- The bytes of a string. -/
abbrev BString := List UInt8

instance : LawfulBEq BString := inferInstance

/-- The bytes of a text of the source. -/
def text (s : String) : BString := s.toList.map fun c => UInt8.ofNat c.toNat

/-- `BString::isData` -/
def BString.isData (s : BString) : Bool := (text "data:").isPrefixOf s && s.contains 44

/-! ### Numbers -/

/-- `PowerEncoding::power`, where `log2` is exact. -/
def power (value : ℕ) : ℕ := Nat.log2 value

/-- `PowerEncoding::remainder`, where `exp2` and the difference are exact. -/
def remainder (value power : ℕ) : ℕ := value - 2 ^ power

theorem power_lt {value : ℕ} (h : value ≠ 0) : power value < value :=
  lt_of_lt_of_le Nat.lt_two_pow_self (Nat.log2_self_le h)

theorem remainder_lt {value : ℕ} (h : value ≠ 0) : remainder value (power value) < value :=
  Nat.sub_lt (Nat.pos_of_ne_zero h) (Nat.two_pow_pos _)

theorem power_add_remainder {value : ℕ} (h : value ≠ 0) :
    2 ^ power value + remainder value (power value) = value :=
  Nat.add_sub_cancel' (Nat.log2_self_le h)

/-- `PowerEncoding::write`, of exact powers and remainders. -/
def write (value : ℕ) : List Bool :=
  if _h : value = 0 then [false]
  else true :: (write (power value) ++ write (remainder value (power value)))
termination_by value
decreasing_by
  · exact power_lt _h
  · exact remainder_lt _h

/-- `PowerEncoding::read`, where the sum is exact. -/
def read : ℕ → Stack → Option (ℕ × Stack)
  | 0, _ => none
  | fuel + 1, s =>
    let (bit, s) := s.readBit
    if bit = false then some (0, s)
    else do
      let (power, s) ← read fuel s
      let (remainder, s) ← read fuel s
      return (2 ^ power + remainder, s)

/-- `operator <<` and `operator >>` of a type; `decode` is none where the
source throws. -/
class Encoded (α : Type) where
  encode : α → List Bool
  decode : Stack → Option (α × Stack)

export Encoded (encode decode)

/-- How a number is read, such as `read`. -/
abbrev NumberReader := ℕ → Stack → Option (ℕ × Stack)

/-- `operator >>` of a number. -/
def decodeNumber (read : NumberReader) (s : Stack) : Option (ℕ × Stack) :=
  let (_, s) := s.readBit
  read (s.bits.length + 1) s

instance instEncodedNat : Encoded ℕ where
  encode value := true :: write value
  decode := decodeNumber read

/-! ### Strings -/

/-- `operator <<` of a character. -/
def encodeChar (character : UInt8) : List Bool := true :: write character.toNat

/-- `operator >>` of a character. -/
def decodeChar (read : NumberReader) (s : Stack) : Option (UInt8 × Stack) := do
  let (_, s) := s.readBit
  let (value, s) ← read (s.bits.length + 1) s
  return (UInt8.ofNat value, s)

/-- The loop of `operator >>` of a string. -/
def decodeChars (read : NumberReader) : ℕ → BString → Stack → Option (BString × Stack)
  | 0, _, _ => none
  | fuel + 1, string, s =>
    if s.peekBit then do
      let (character, s) ← decodeChar read s
      decodeChars read fuel (string ++ [character]) s
    else some (string, s)

/-- `operator >>` of a string. -/
def decodeString (read : NumberReader) (s : Stack) : Option (BString × Stack) := do
  let (_, s) := s.readBit
  let (string, s) ← decodeChars read (s.bits.length + 1) [] s
  let (_, s) := s.readBit
  return (string, s)

instance : Encoded BString where
  encode string := true :: (string.flatMap encodeChar ++ [false])
  decode := decodeString read

/-! ### Ids -/

structure Timestamp where
  milliseconds : ℕ
  increment : ℕ
  deriving DecidableEq, Repr

structure Id where
  name : BString
  timestamp : Timestamp
  deriving DecidableEq, Repr

/-- `operator >>` of a timestamp. -/
def decodeTimestamp (read : NumberReader) (s : Stack) : Option (Timestamp × Stack) := do
  let (bit, s) := s.readBit
  if bit then
    let (milliseconds, s) ← decodeNumber read s
    let (increment, s) ← decodeNumber read s
    let (bit, s) := s.readBit
    if bit then none else return (⟨milliseconds, increment⟩, s)
  else none

instance : Encoded Timestamp where
  encode t := true :: (encode t.milliseconds ++ encode t.increment ++ [false])
  decode := decodeTimestamp read

/-- `operator >>` of an id. -/
def decodeId (read : NumberReader) (s : Stack) : Option (Id × Stack) := do
  let (bit, s) := s.readBit
  if bit then
    let (name, s) ← decodeString read s
    let (timestamp, s) ← decodeTimestamp read s
    let (bit, s) := s.readBit
    if bit then none else return (⟨name, timestamp⟩, s)
  else none

instance : Encoded Id where
  encode id := true :: (encode id.name ++ encode id.timestamp ++ [false])
  decode := decodeId read

/-! ### Keys -/

/-- The bits of one encoded key. -/
@[ext] structure Key where
  bits : List Bool
  isCode : IsCode bits
  deriving DecidableEq

/-- The loop of `operator >>` of a stack: bits up to the one that brings the
count down to zero. -/
def decodeBits : ℕ → List Bool → Stack → Option (List Bool × Stack)
  | 0, _, _ => none
  | fuel + 1, bits, s =>
    let (bit, s) := s.readBit
    if 0 < s.count then decodeBits fuel (bits ++ [bit]) s else some (bits ++ [bit], s)

/-- A key is a stack that holds one code, such as an id of a JSON path. -/
instance : Encoded Key where
  encode key := key.bits
  decode s := do
    let (bits, s) ← decodeBits (s.bits.length + 1) [] s
    if h : IsCode bits then return (⟨bits, h⟩, s) else none

/-! ### Reading from a stack -/

namespace Stack

/-- The bits not yet read. -/
def rest (s : Stack) : List Bool := s.bits.drop s.it

/-- The stack after reading the bits `v`. -/
def advance (s : Stack) (v : List Bool) : Stack :=
  { s with count := height s.count v, it := s.it + v.length }

@[simp] theorem advance_bits (s : Stack) (v : List Bool) : (s.advance v).bits = s.bits := rfl
@[simp] theorem advance_count (s : Stack) (v : List Bool) :
    (s.advance v).count = height s.count v :=
  rfl

@[simp] theorem advance_nil (s : Stack) : s.advance [] = s := rfl

theorem advance_advance (s : Stack) (u v : List Bool) :
    (s.advance u).advance v = s.advance (u ++ v) := by
  simp [advance, Nat.add_assoc]

theorem rest_advance {s : Stack} {v post : List Bool} (h : s.rest = v ++ post) :
    (s.advance v).rest = post := by
  have : (s.advance v).rest = s.rest.drop v.length := by simp [rest, advance, List.drop_drop]
  rw [this, h, List.drop_left]

theorem rest_advance_cons {s : Stack} {b : Bool} {post : List Bool} (h : s.rest = b :: post) :
    (s.advance [b]).rest = post := rest_advance (v := [b]) h

theorem length_lt_of_rest {s : Stack} {v post : List Bool} (h : s.rest = v ++ post) :
    v.length < s.bits.length + 1 := by
  have h1 : s.rest.length ≤ s.bits.length := by simp [rest]
  rw [h, List.length_append] at h1
  omega

theorem peekBit_of_rest {s : Stack} {b : Bool} {post : List Bool} (h : s.rest = b :: post) :
    s.peekBit = b := by
  have : s.bits[s.it]? = s.rest[0]? := by simp [rest]
  simp [peekBit, this, h]

theorem readBit_of_rest {s : Stack} {b : Bool} {post : List Bool} (h : s.rest = b :: post) :
    s.readBit = (b, s.advance [b]) := by
  have hlt : s.it < s.bits.length := by
    by_contra hn
    rw [rest, List.drop_eq_nil_of_le (by omega)] at h
    cases h
  simp [readBit, peekBit_of_rest h, advance, hlt, countBit_eq_height]

end Stack

/-- What `operator <<` writes is a code, and `operator >>` of a fresh stack
reads the value back from it, whatever bits follow. -/
class LawfulEncoded (α : Type) [Encoded α] : Prop where
  isCode : ∀ a : α, IsCode (encode a)
  decode_encode : ∀ (a : α) {s : Stack} {post : List Bool}, s.rest = encode a ++ post →
    s.count = 0 →
    decode s = some (a, s.advance (encode a))

theorem encode_injective {α : Type} [Encoded α] [LawfulEncoded α] {a b : α}
    (h : encode a = encode b) : a = b := by
  have hrest : Stack.rest ⟨encode a, 0, 0⟩ = encode a ++ [] := by simp [Stack.rest]
  have ha := LawfulEncoded.decode_encode a hrest rfl
  have hb := LawfulEncoded.decode_encode b (h ▸ hrest) rfl
  rw [← h, ha] at hb
  exact (Prod.mk.inj (Option.some.inj hb)).1

/-- The key of a value. -/
def Key.of {α : Type} [Encoded α] [LawfulEncoded α] (a : α) : Key :=
  ⟨encode a, LawfulEncoded.isCode a⟩

/-! ### Numbers read back -/

theorem write_zero : write 0 = [false] := by
  rw [write]
  rfl

theorem write_pos {value : ℕ} (h : value ≠ 0) :
    write value = true :: (write (power value) ++ write (remainder value (power value))) := by
  rw [write, dif_neg h]

/-- A written number comes down by one. -/
theorem closes_write (value : ℕ) : Closes 1 (write value) := by
  induction value using Nat.strong_induction_on with
  | _ value ih =>
    by_cases h : value = 0
    · subst h
      rw [write_zero]
      exact Or.inl ⟨rfl, rfl⟩
    · rw [write_pos h, closes_true]
      exact (closes_add_append Nat.one_pos _ _ 1 (ih _ (power_lt h))).mpr (ih _ (remainder_lt h))

/-- A number is read from its bits, whatever follows. -/
def ReadsNumber (read : NumberReader) (bits : List Bool) (value : ℕ) : Prop :=
  ∀ (fuel : ℕ) {s : Stack} {post : List Bool},
  bits.length < fuel → s.rest = bits ++ post → read fuel s = some (value, s.advance bits)

theorem read_write (value : ℕ) : ReadsNumber read (write value) value := by
  induction value using Nat.strong_induction_on with
  | _ value ih =>
    intro fuel s post hf hs
    cases fuel with
    | zero => omega
    | succ fuel =>
      by_cases h : value = 0
      · subst h
        rw [write_zero] at hs ⊢
        simp [read, Stack.readBit_of_rest hs]
      · rw [write_pos h] at hs hf ⊢
        simp only [List.cons_append, List.append_assoc, List.length_cons,
          List.length_append] at hs hf
        have h1 := Stack.rest_advance_cons hs
        have h2 := Stack.rest_advance h1
        have r1 := ih _ (power_lt h) fuel (by omega) h1
        have r2 := ih _ (remainder_lt h) fuel (by omega) h2
        simp only [Stack.advance_advance, List.cons_append, List.nil_append] at r1 r2
        simp [read, Stack.readBit_of_rest hs, r1, r2, power_add_remainder h]

theorem decodeNumber_of_reads {read : NumberReader} {bits : List Bool} {value : ℕ}
    (h : ReadsNumber read bits value) {s : Stack}
    {post : List Bool} (hs : s.rest = true :: bits ++ post) :
    decodeNumber read s = some (value, s.advance (true :: bits)) := by
  have h1 : s.rest = true :: (bits ++ post) := hs
  have h2 := Stack.rest_advance_cons h1
  have hl : bits.length < s.bits.length + 1 := Stack.length_lt_of_rest (s := s.advance [true]) h2
  simp [decodeNumber, Stack.readBit_of_rest h1, h _ hl h2, Stack.advance_advance]

theorem decode_index (value : ℕ) {s : Stack} {post : List Bool}
    (hs : s.rest = encode value ++ post) :
    decode s = some (value, s.advance (encode value)) := decodeNumber_of_reads (read_write value) hs

instance : LawfulEncoded ℕ where
  isCode value := closes_write value
  decode_encode value _ _ hs _ := decode_index value hs

/-! ### Strings read back -/

theorem isCode_encodeChar (character : UInt8) : IsCode (encodeChar character) := closes_write _

/-- The number of a character is read from its bits. -/
def ReadsChars (read : NumberReader) : Prop :=
  ∀ character : UInt8, ReadsNumber read (write character.toNat) character.toNat

theorem decode_char {read : NumberReader} (h : ReadsChars read) (character : UInt8) {s : Stack}
    {post : List Bool}
    (hs : s.rest = encodeChar character ++ post) :
    decodeChar read s = some (character, s.advance (encodeChar character)) := by
  have h1 : s.rest = true :: (write character.toNat ++ post) := hs
  have h2 := Stack.rest_advance_cons h1
  have hl : (write character.toNat).length < s.bits.length + 1 :=
    Stack.length_lt_of_rest (s := s.advance [true]) h2
  simp [decodeChar, Stack.readBit_of_rest h1, h character _ hl h2, Stack.advance_advance,
    encodeChar]

theorem closes_flatMap_encodeChar (string : BString) :
    Closes 1 (string.flatMap encodeChar ++ [false]) := by
  induction string with
  | nil => exact Or.inl ⟨rfl, rfl⟩
  | cons c cs ih =>
    rw [List.flatMap_cons, List.append_assoc]
    exact ((isCode_encodeChar c).closes_append Nat.one_pos _).mpr ih

theorem decode_chars {read : NumberReader} (hread : ReadsChars read) (string : BString) :
    ∀ (fuel : ℕ) (done : BString) {s : Stack} {post : List Bool},
    string.length < fuel → s.rest = string.flatMap encodeChar ++ false :: post →
    decodeChars read fuel done s =
      some (done ++ string, s.advance (string.flatMap encodeChar)) := by
  induction string with
  | nil =>
    intro fuel done s post hf hs
    cases fuel with
    | zero => omega
    | succ fuel => simp [decodeChars, Stack.peekBit_of_rest hs]
  | cons c cs ih =>
    intro fuel done s post hf hs
    cases fuel with
    | zero => omega
    | succ fuel =>
      rw [List.flatMap_cons, List.append_assoc] at hs
      have hp : s.peekBit = true := Stack.peekBit_of_rest hs
      have h1 := Stack.rest_advance hs
      have r := ih fuel (done ++ [c]) (by simpa using hf) h1
      simp [decodeChars, hp, decode_char hread c hs, r, Stack.advance_advance]

theorem length_le_flatMap_encodeChar (string : BString) :
    string.length ≤ (string.flatMap encodeChar).length := by
  induction string with
  | nil => simp
  | cons c cs ih =>
    simp only [List.flatMap_cons, List.length_cons, List.length_append, encodeChar]
    omega

theorem decodeString_of_reads {read : NumberReader} (hread : ReadsChars read) (string : BString)
    {s : Stack} {post : List Bool}
    (hs : s.rest = encode string ++ post) :
    decodeString read s = some (string, s.advance (encode string)) := by
  have h1 : s.rest = true :: (string.flatMap encodeChar ++ false :: post) := by
    rw [hs]
    simp [encode]
  have h2 := Stack.rest_advance_cons h1
  have h3 := Stack.rest_advance h2
  have hl : string.length < s.bits.length + 1 :=
    lt_of_le_of_lt (length_le_flatMap_encodeChar string)
      (Stack.length_lt_of_rest (s := s.advance [true]) h2)
  have r := decode_chars hread string _ [] hl h2
  have r' := Stack.readBit_of_rest h3
  simp only [Stack.advance_advance, List.cons_append, List.nil_append] at r r'
  simp [decodeString, encode, Stack.readBit_of_rest h1, r, r']

theorem decode_string (string : BString) {s : Stack} {post : List Bool}
    (hs : s.rest = encode string ++ post) :
    decode s = some (string, s.advance (encode string)) :=
  decodeString_of_reads (fun c => read_write c.toNat) string hs

instance : LawfulEncoded BString where
  isCode string := closes_flatMap_encodeChar string
  decode_encode string _ _ hs _ := decode_string string hs

/-! ### Ids read back -/

/-- A one, two codes and a zero are a code. -/
theorem isCode_pair {u v : List Bool} (hu : IsCode u) (hv : IsCode v) :
    IsCode (true :: (u ++ v ++ [false])) := by
  rw [IsCode, closes_true, List.append_assoc, hu.closes_append Nat.one_pos,
    hv.closes_append Nat.one_pos]
  exact Or.inl ⟨rfl, rfl⟩

section

variable {read : NumberReader} {u v : List Bool} {milliseconds increment : ℕ}

/-- The bits of a timestamp with those of its numbers. -/
def timestampBits (u v : List Bool) : List Bool := true :: (true :: u ++ true :: v ++ [false])

theorem decodeTimestamp_of_reads (hu : ReadsNumber read u milliseconds)
    (hv : ReadsNumber read v increment) {s : Stack} {post : List Bool}
    (hs : s.rest = timestampBits u v ++ post) :
    decodeTimestamp read s = some (⟨milliseconds, increment⟩, s.advance (timestampBits u v)) := by
  have h1 : s.rest = true :: (true :: u ++ (true :: v ++ false :: post)) := by
    rw [hs]
    simp [timestampBits]
  have h2 : (s.advance [true]).rest = true :: u ++ (true :: v ++ false :: post) :=
    Stack.rest_advance_cons h1
  have h3 := Stack.rest_advance h2
  have h4 := Stack.rest_advance h3
  have r1 := decodeNumber_of_reads hu h2
  have r2 := decodeNumber_of_reads hv h3
  have r3 := Stack.readBit_of_rest h4
  simp only [Stack.advance_advance, List.cons_append, List.nil_append,
    List.append_assoc] at r1 r2 r3
  simp [decodeTimestamp, timestampBits, Stack.readBit_of_rest h1, r1, r2, r3]

/-- The bits of an id with those of its numbers. -/
def idBitsOf (name : BString) (u v : List Bool) : List Bool :=
  true :: (encode name ++ timestampBits u v ++ [false])

theorem decodeId_of_reads (hread : ReadsChars read) (hu : ReadsNumber read u milliseconds)
    (hv : ReadsNumber read v increment) (name : BString)
    {s : Stack} {post : List Bool} (hs : s.rest = idBitsOf name u v ++ post) :
    decodeId read s = some (⟨name, milliseconds, increment⟩, s.advance (idBitsOf name u v)) := by
  have h1 : s.rest = true :: (encode name ++ (timestampBits u v ++ false :: post)) := by
    rw [hs]
    simp [idBitsOf]
  have h2 := Stack.rest_advance_cons h1
  have h3 := Stack.rest_advance h2
  have h4 := Stack.rest_advance h3
  have r1 := decodeString_of_reads hread name h2
  have r2 := decodeTimestamp_of_reads hu hv h3
  have r3 := Stack.readBit_of_rest h4
  simp only [Stack.advance_advance, List.cons_append, List.nil_append,
    List.append_assoc] at r1 r2 r3
  simp [decodeId, idBitsOf, Stack.readBit_of_rest h1, r1, r2, r3]

end

theorem decode_timestamp (t : Timestamp) {s : Stack} {post : List Bool}
    (hs : s.rest = encode t ++ post) :
    decode s = some (t, s.advance (encode t)) :=
  decodeTimestamp_of_reads (read_write t.milliseconds) (read_write t.increment) hs

instance : LawfulEncoded Timestamp where
  isCode t := isCode_pair (LawfulEncoded.isCode t.milliseconds) (LawfulEncoded.isCode t.increment)
  decode_encode t _ _ hs _ := decode_timestamp t hs

theorem decode_id (id : Id) {s : Stack} {post : List Bool} (hs : s.rest = encode id ++ post) :
    decode s = some (id, s.advance (encode id)) :=
  decodeId_of_reads (fun c => read_write c.toNat) (read_write id.timestamp.milliseconds)
    (read_write id.timestamp.increment) id.name hs

instance : LawfulEncoded Id where
  isCode id := isCode_pair (LawfulEncoded.isCode id.name) (LawfulEncoded.isCode id.timestamp)
  decode_encode id _ _ hs _ := decode_id id hs

/-! ### Keys read back -/

theorem decode_bits (v : List Bool) :
    ∀ (fuel : ℕ) (done : List Bool) {s : Stack} {post : List Bool},
    v.length < fuel → s.rest = v ++ post → Closes s.count v →
    decodeBits fuel done s = some (done ++ v, s.advance v) := by
  induction v with
  | nil =>
    intro fuel done s post _ _ hc
    exact hc.elim
  | cons b v ih =>
    intro fuel done s post hf hs hc
    cases fuel with
    | zero => omega
    | succ fuel =>
      have h1 := Stack.rest_advance_cons hs
      have hf' : v.length < fuel := by simpa using hf
      have hstep : (s.advance [b]).count = height s.count [b] := rfl
      cases b with
      | true =>
        have r := ih fuel (done ++ [true]) hf' h1 hc
        have hp : 0 < (s.advance [true]).count := by simp
        simp [decodeBits, Stack.readBit_of_rest hs, r, Stack.advance_advance]
      | false =>
        rcases hc with ⟨h0, rfl⟩ | ⟨h0, hc⟩
        · simp [decodeBits, Stack.readBit_of_rest hs, h0]
        · have r := ih fuel (done ++ [false]) hf' h1 hc
          have hp : 0 < s.count - 1 := by omega
          simp [decodeBits, Stack.readBit_of_rest hs, r, Stack.advance_advance, hp]

instance : LawfulEncoded Key where
  isCode key := key.isCode
  decode_encode key s post hs hc := by
    have hl : key.bits.length < s.bits.length + 1 := Stack.length_lt_of_rest hs
    have r := decode_bits key.bits _ [] hl hs (by rw [hc]; exact key.isCode)
    simp [decode, encode, r, key.isCode]

/-- **Keys decode to what was encoded, in any context**: wherever the reading
of a stack has come to, reading from the code of a value, whatever follows it,
gives the value and leaves what follows. -/
theorem decode_encode_then (pre post : List Bool) (count : ℕ) :
    (∀ n : ℕ, ∃ s : Stack, decode ⟨pre ++ (encode n ++ post), count, pre.length⟩ = some (n, s) ∧
      s.rest = post) ∧
    (∀ string : BString, ∃ s : Stack,
      decode ⟨pre ++ (encode string ++ post), count, pre.length⟩ = some (string, s) ∧
        s.rest = post) ∧
    (∀ t : Timestamp, ∃ s : Stack, decode ⟨pre ++ (encode t ++ post), count, pre.length⟩ =
      some (t, s) ∧ s.rest = post) ∧
    ∀ id : Id, ∃ s : Stack, decode ⟨pre ++ (encode id ++ post), count, pre.length⟩ = some (id, s) ∧
      s.rest = post := by
  have hrest : ∀ v : List Bool, Stack.rest ⟨pre ++ (v ++ post), count, pre.length⟩ = v ++ post :=
    fun v => by
    simp [Stack.rest]
  refine ⟨fun n => ?_, fun string => ?_, fun t => ?_, fun id => ?_⟩
  · exact ⟨_, decode_index n (hrest _), Stack.rest_advance (hrest _)⟩
  · exact ⟨_, decode_string string (hrest _), Stack.rest_advance (hrest _)⟩
  · exact ⟨_, decode_timestamp t (hrest _), Stack.rest_advance (hrest _)⟩
  · exact ⟨_, decode_id id (hrest _), Stack.rest_advance (hrest _)⟩

end BeeFish
