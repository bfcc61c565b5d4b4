/-
# The client's ids

The browser client writes and reads the keys of ids on its own
(client/stream/stream.js, client/power-encoding/power-encoding.js,
client/id/id.js): a `Stream` is a text of bits with a place to read and a
count, and the codes check that the count comes back. The client makes the key
the server makes (`encodeKey_eq`) and both read it; but the client's
`TextDecoder` leaves out a byte order mark, so a name that begins with one is
read without it (`agrees_iff`).

A number of the client is a natural number here, and its logarithms and powers
are exact; a text is a list of characters.

Key definitions: `Client.Stream`, `Client.Id.encodeKey`,
`Client.Id.decodeKey`.
-/
import BeeFish.Lib.Utf8Text
import BeeFish.Btoa

namespace BeeFish

namespace Client

open BitCode

/-! ### Streams -/

/-- The count of a bit that is read or written. -/
def tick (count : ℤ) (bit : Option Bool) : ℤ := if bit = some true then count + 1 else count - 1

structure Stream where
  bits : List Bool
  index : ℕ
  count : ℤ

namespace Stream

/-- A new stream, of no bits. -/
def empty : Stream := ⟨[], 0, 0⟩

/-- The stream of a string; `_getBitsFromString`. -/
def ofString (data : BString) : Stream := ⟨data.flatMap bitset, 0, 0⟩

/-- The next bit; none stands for `undefined`, at the end. -/
def peek (s : Stream) : Option Bool := s.bits[s.index]?

def read (s : Stream) : Option Bool × Stream :=
  (s.peek, { s with index := s.index + 1, count := tick s.count s.peek })

def write (s : Stream) (bits : List Bool) : Stream :=
  { s with
    bits := s.bits ++ bits
    count := bits.foldl (fun count bit => tick count (some bit)) s.count }

def toString (s : Stream) : BString :=
  (chunks 8 s.bits).map fun chunk => UInt8.ofNat (parseBits chunk)

/-! ### Power encoding -/

def exponent (x : ℕ) : ℕ := Nat.log2 x

def remainder (x exponent : ℕ) : ℕ := x - 2 ^ exponent

/-- `PowerEncoding.encode` -/
def encode (s : Stream) (x : ℕ) : Stream :=
  if _h : x = 0 then s.write [false]
  else
    let s := s.write [true]
    let s := s.encode (exponent x)
    s.encode (remainder x (exponent x))
termination_by x
decreasing_by
  · exact power_lt _h
  · exact remainder_lt _h

/-- `PowerEncoding.decode`; none where it does not come to an end. -/
def decode : ℕ → Stream → Option (ℕ × Stream)
  | 0, _ => none
  | fuel + 1, s =>
    let (bit, s) := s.read
    if bit = some false then some (0, s)
    else do
      let (exponent, s) ← decode fuel s
      let (remainder, s) ← decode fuel s
      return (2 ^ exponent + remainder, s)

end Stream

/-- `Number.prototype.encode`; none where a `CHECK` fails, here and below. -/
def encodeNumber (stream : Stream) (value : ℕ) : Option Stream := do
  let startCount := stream.count
  let stream := stream.write [true]
  let stream := stream.encode value
  guard (stream.count - startCount = 0)
  return stream

/-- `Number.decode` -/
def decodeNumber (stream : Stream) : Option (ℕ × Stream) := do
  let startCount := stream.count
  let (bit, stream) := stream.read
  guard (bit = some true)
  let (number, stream) ← stream.decode (stream.bits.length + 1)
  guard (stream.count - startCount = 0)
  return (number, stream)

/-- `String.prototype.encode` -/
def encodeString (stream : Stream) (string : List Char) : Option Stream := do
  let utf8 := Utf8.encode string
  let startCount := stream.count
  let stream := stream.write [true]
  let stream ← utf8.foldlM (fun stream charCode => encodeNumber stream charCode.toNat) stream
  let stream := stream.write [false]
  guard (stream.count - startCount = 0)
  return stream

/-- The loop of `String.decode`. -/
def decodeUtf8 : ℕ → List ℕ → Stream → Option (List ℕ × Stream)
  | 0, _, _ => none
  | fuel + 1, utf8, stream =>
    if stream.peek = some true then do
      let (charCode, stream) ← decodeNumber stream
      decodeUtf8 fuel (utf8 ++ [charCode]) stream
    else some (utf8, stream)

/-- U+FEFF -/
def byteOrderMark : Char := Char.ofNat 0xFEFF

/-- `String.fromUtf8`: a `TextDecoder` leaves out a byte order mark at the
beginning. -/
def fromUtf8 (bytes : BString) : List Char :=
  match Utf8.decode bytes with
  | [] => []
  | c :: cs => if c = byteOrderMark then cs else c :: cs

/-- `String.decode` -/
def decodeString (stream : Stream) : Option (List Char × Stream) := do
  let startCount := stream.count
  let (bit, stream) := stream.read
  guard (bit = some true)
  let (utf8, stream) ← decodeUtf8 (stream.bits.length + 1) [] stream
  let (bit, stream) := stream.read
  guard (bit = some false)
  guard (stream.count - startCount = 0)
  return (fromUtf8 (utf8.map UInt8.ofNat), stream)

/-! ### Ids -/

structure Id where
  name : List Char
  milliseconds : ℕ
  increment : ℕ
  deriving DecidableEq

/-- `Id._encodeKey` -/
def Id.encodeKey (id : Id) : Option BString := do
  let stream := Stream.empty.write [true]
  let stream ← encodeString stream id.name
  let stream := stream.write [true]
  let stream ← encodeNumber stream id.milliseconds
  let stream ← encodeNumber stream id.increment
  let stream := stream.write [false]
  let stream := stream.write [false]
  return btoa stream.toString

/-- `Id._decodeKey` -/
def Id.decodeKey (key : BString) : Option Id := do
  let data ← atob key
  let stream := Stream.ofString data
  let (bit, stream) := stream.read
  guard (bit = some true)
  let (name, stream) ← decodeString stream
  let (bit, stream) := stream.read
  guard (bit = some true)
  let (milliseconds, stream) ← decodeNumber stream
  let (increment, stream) ← decodeNumber stream
  let (bit, stream) := stream.read
  guard (bit = some false)
  let (bit, stream) := stream.read
  guard (bit = some false)
  guard (stream.count = 0)
  return ⟨name, milliseconds, increment⟩

/-! ### Writing -/

/-- The count after some bits. -/
def tally (count : ℤ) (bits : List Bool) : ℤ :=
  bits.foldl (fun count bit => tick count (some bit)) count

theorem tally_append (u v : List Bool) (count : ℤ) :
    tally count (u ++ v) = tally (tally count u) v :=
  List.foldl_append

theorem tally_eq : ∀ (v : List Bool) (count : ℤ),
    tally count v = count + v.count true - v.count false
  | [], count => by simp [tally]
  | b :: v, count => by
    have ih := tally_eq v (tick count (some b))
    have hc : tally count (b :: v) = tally (tick count (some b)) v := rfl
    rw [hc, ih, List.count_cons, List.count_cons]
    cases b with
    | true => simp [tick]; omega
    | false => simp [tick]; omega

/-- A code leaves the count. -/
theorem tally_code {v : List Bool} (hv : IsCode v) (count : ℤ) : tally count v = count := by
  have h := hv.count
  rw [tally_eq]
  omega

namespace Stream

theorem write_write (s : Stream) (u v : List Bool) : (s.write u).write v = s.write (u ++ v) := by
  simp [write, List.foldl_append]

@[simp] theorem write_count (s : Stream) (v : List Bool) :
    (s.write v).count = tally s.count v := rfl

/-- The client's number code is the server's. -/
theorem encode_eq (x : ℕ) : ∀ s : Stream, s.encode x = s.write (BeeFish.write x) := by
  induction x using Nat.strong_induction_on with
  | _ x ih =>
    intro s
    rw [encode]
    by_cases h : x = 0
    · rw [dif_pos h, h, write_zero]
    · rw [dif_neg h, write_pos h]
      have h1 := ih (exponent x) (power_lt h) (s.write [true])
      have h2 := ih (remainder x (exponent x)) (remainder_lt h)
        ((s.write [true]).encode (exponent x))
      rw [h2, h1, write_write, write_write]
      rfl

end Stream

theorem encodeNumber_eq (s : Stream) (value : ℕ) :
    encodeNumber s value = some (s.write (BeeFish.encode value)) := by
  have he : (s.write [true]).encode value = s.write (BeeFish.encode value) := by
    rw [Stream.encode_eq, Stream.write_write]
    rfl
  have hc : (s.write (BeeFish.encode value)).count - s.count = 0 := by
    rw [Stream.write_count, tally_code (LawfulEncoded.isCode value)]
    omega
  simp only [encodeNumber, he, hc, guard_true]
  rfl

theorem foldlM_encodeNumber : ∀ (utf8 : BString) (s : Stream),
    utf8.foldlM (fun stream charCode => encodeNumber stream charCode.toNat) s =
      some (s.write (utf8.flatMap encodeChar))
  | [], s => by simp [Stream.write]
  | c :: utf8, s => by
    rw [List.foldlM_cons, encodeNumber_eq]
    exact (foldlM_encodeNumber utf8 _).trans (by rw [Stream.write_write]; rfl)

theorem encodeString_eq (s : Stream) (string : List Char) :
    encodeString s string = some (s.write (BeeFish.encode (Utf8.encode string))) := by
  have he : ((s.write [true]).write ((Utf8.encode string).flatMap encodeChar)).write [false] =
      s.write (BeeFish.encode (Utf8.encode string)) := by
    rw [Stream.write_write, Stream.write_write]
    rfl
  have hc : (s.write (BeeFish.encode (Utf8.encode string))).count - s.count = 0 := by
    rw [Stream.write_count, tally_code (LawfulEncoded.isCode (Utf8.encode string))]
    omega
  simp only [encodeString, foldlM_encodeNumber, Option.bind_eq_bind, Option.bind_some, he, hc,
    guard_true]
  rfl

/-- The id as the server has it. -/
def Id.toServer (id : Id) : BeeFish.Id := ⟨Utf8.encode id.name, ⟨id.milliseconds, id.increment⟩⟩

theorem encodeKey_bits (id : Id) :
    id.encodeKey = some (btoa (Stream.empty.write (BeeFish.encode id.toServer)).toString) := by
  simp only [Id.encodeKey, encodeString_eq, encodeNumber_eq, Option.bind_eq_bind, Option.bind_some,
    Stream.write_write]
  have he : BeeFish.encode id.toServer = [true] ++ BeeFish.encode
    (Utf8.encode id.name) ++ ([true] ++
      BeeFish.encode id.milliseconds ++ (BeeFish.encode id.increment ++ ([false] ++ [false]))) := by
    simp [BeeFish.encode, Id.toServer]
  rw [he]
  rfl

/-! ### The same bytes -/

/-- The server packs the bits into the same chunks. -/
theorem toDataFrom_chunk : ∀ (w p : List Bool), p.length < 8 → p ++ w ≠ [] →
    Stack.toDataFrom (fill 8 p) p.length w =
      toByte (fill 8 ((p ++ w).take 8)) :: Stack.toDataFrom Stack.zeros 0 ((p ++ w).drop 8)
  | [], p, hp, hne => by
    have hpos : 0 < p.length := List.length_pos_iff.mpr (by simpa using hne)
    rw [List.append_nil, List.take_of_length_le hp.le, List.drop_eq_nil_of_le hp.le]
    simp [Stack.toDataFrom, hpos]
  | b :: w, p, hp, _ => by
    have hset : (fill 8 p).set p.length b = fill 8 (p ++ [b]) := by
      obtain ⟨n, hn⟩ : ∃ n, 8 - p.length = n + 1 := ⟨7 - p.length, by omega⟩
      have hn' : 8 - (p ++ [b]).length = n := by simp; omega
      rw [fill, fill, hn, hn', List.set_append_right _ _ le_rfl, List.replicate_succ]
      simp
    have happ : p ++ b :: w = (p ++ [b]) ++ w := by simp
    rw [Stack.toDataFrom, hset, happ]
    by_cases h : p.length + 1 = 8
    · have hl : (p ++ [b]).length = 8 := by simpa using h
      rw [if_pos h, List.take_left' hl, List.drop_left' hl]
    · have ih := toDataFrom_chunk w (p ++ [b]) (by simp; omega) (by simp)
      rw [if_neg h, ← ih]
      simp

theorem toData_eq_toString (n : ℕ) : ∀ {bits : List Bool}, bits.length ≤ n →
    Stack.toDataFrom Stack.zeros 0 bits = (chunks 8 bits).map fun chunk =>
      UInt8.ofNat (parseBits chunk) := by
  induction n with
  | zero =>
    intro bits h
    obtain rfl := List.length_eq_zero_iff.mp (Nat.le_zero.mp h)
    rfl
  | succ n ih =>
    intro bits h
    by_cases hb : bits = []
    · rw [hb]
      rfl
    · have hc := toDataFrom_chunk bits [] (by decide) (by simpa using hb)
      have hpos : 0 < bits.length := List.length_pos_iff.mpr hb
      rw [List.nil_append] at hc
      rw [chunks_cons (by decide) hb, List.map_cons, ← ih (by rw [List.length_drop]; omega)]
      exact hc

/-- **The client makes the key the server makes.** -/
theorem encodeKey_eq (id : Id) : id.encodeKey = id.toServer.createKey := by
  rw [encodeKey_bits, createKey_eq, btoa_eq_toBase64]
  refine congrArg (fun data => some (BString.toBase64 data)) ?_
  have hbits : ((BeeFish.encode id.toServer).foldl Stack.writeBit .empty).bits =
    BeeFish.encode id.toServer := by
    simp [Stack.foldl_writeBit_bits]
  rw [Stack.toData, hbits, toData_eq_toString _ le_rfl]
  rfl

/-! ### Reading -/

namespace Stream

/-- The bits not yet read. -/
def rest (s : Stream) : List Bool := s.bits.drop s.index

/-- The stream after reading the bits `v`. -/
def advance (s : Stream) (v : List Bool) : Stream :=
  { s with index := s.index + v.length, count := tally s.count v }

@[simp] theorem advance_count (s : Stream) (v : List Bool) :
    (s.advance v).count = tally s.count v :=
  rfl
@[simp] theorem advance_bits (s : Stream) (v : List Bool) : (s.advance v).bits = s.bits := rfl

theorem advance_advance (s : Stream) (u v : List Bool) :
    (s.advance u).advance v = s.advance (u ++ v) := by
  simp [advance, tally_append, Nat.add_assoc]

theorem rest_advance {s : Stream} {v post : List Bool} (h : s.rest = v ++ post) :
    (s.advance v).rest = post := by
  have : (s.advance v).rest = s.rest.drop v.length := by simp [rest, advance, List.drop_drop]
  rw [this, h, List.drop_left]

theorem rest_advance_cons {s : Stream} {b : Bool} {post : List Bool} (h : s.rest = b :: post) :
    (s.advance [b]).rest = post := rest_advance (v := [b]) h

theorem peek_of_rest {s : Stream} {b : Bool} {post : List Bool} (h : s.rest = b :: post) :
    s.peek = some b := by
  have : s.bits[s.index]? = s.rest[0]? := by simp [rest]
  simp [peek, this, h]

theorem read_of_rest {s : Stream} {b : Bool} {post : List Bool} (h : s.rest = b :: post) :
    s.read = (some b, s.advance [b]) := by
  simp [read, peek_of_rest h, advance, tally]

theorem length_lt_of_rest {s : Stream} {v post : List Bool} (h : s.rest = v ++ post) :
    v.length < s.bits.length + 1 := by
  have h1 : s.rest.length ≤ s.bits.length := by simp [rest]
  rw [h, List.length_append] at h1
  omega

theorem decode_write (value : ℕ) : ∀ (fuel : ℕ) {s : Stream} {post : List Bool},
    (BeeFish.write value).length < fuel →
    s.rest = BeeFish.write value ++ post →
      decode fuel s = some (value, s.advance (BeeFish.write value)) := by
  induction value using Nat.strong_induction_on with
  | _ value ih =>
    intro fuel s post hf hs
    cases fuel with
    | zero => omega
    | succ fuel =>
      by_cases h : value = 0
      · subst h
        rw [write_zero] at hs ⊢
        simp [decode, read_of_rest hs]
      · rw [write_pos h] at hs hf ⊢
        simp only [List.cons_append, List.append_assoc, List.length_cons,
          List.length_append] at hs hf
        have h1 := rest_advance_cons hs
        have h2 := rest_advance h1
        have r1 := ih _ (power_lt h) fuel (by omega) h1
        have r2 := ih _ (BeeFish.remainder_lt h) fuel (by omega) h2
        simp only [advance_advance, List.cons_append, List.nil_append] at r1 r2
        simp [decode, read_of_rest hs, r1, r2, power_add_remainder h]

end Stream

/-- The count after a code. -/
theorem advance_code {s : Stream} {v : List Bool} (hv : IsCode v) :
    (s.advance v).count - s.count = 0 := by
  rw [Stream.advance_count, tally_code hv]
  omega

theorem decodeNumber_encode (value : ℕ) {s : Stream} {post : List Bool}
    (hs : s.rest = BeeFish.encode value ++ post) :
    decodeNumber s = some (value, s.advance (BeeFish.encode value)) := by
  have h1 : s.rest = true :: (BeeFish.write value ++ post) := hs
  have h2 := Stream.rest_advance_cons h1
  have hl : (BeeFish.write value).length < s.bits.length + 1 :=
    Stream.length_lt_of_rest (s := s.advance [true]) h2
  have he : [true] ++ BeeFish.write value = BeeFish.encode value := rfl
  simp only [decodeNumber, Stream.read_of_rest h1, guard_true, Option.bind_eq_bind, Option.pure_def,
    Option.bind_some,
    Stream.advance_bits, Stream.decode_write value _ hl h2, Stream.advance_advance, he,
    advance_code (LawfulEncoded.isCode value)]

theorem decodeUtf8_encode :
    ∀ (utf8 : BString) (fuel : ℕ) (done : List ℕ) {s : Stream} {post : List Bool},
    utf8.length < fuel → s.rest = utf8.flatMap encodeChar ++ false :: post →
    decodeUtf8 fuel done s = some (done ++ utf8.map UInt8.toNat,
      s.advance (utf8.flatMap encodeChar))
  | utf8, 0, _, _, _, hf, _ => absurd hf (Nat.not_lt_zero _)
  | [], fuel + 1, done, s, post, _, hs => by
    simp [decodeUtf8, Stream.peek_of_rest hs, Stream.advance, tally]
  | c :: utf8, fuel + 1, done, s, post, hf, hs => by
    rw [List.flatMap_cons, List.append_assoc] at hs
    have hp : s.peek = some true := Stream.peek_of_rest hs
    have hn : decodeNumber s = some (c.toNat, s.advance (encodeChar c)) :=
      decodeNumber_encode c.toNat hs
    have r := decodeUtf8_encode utf8 fuel (done ++ [c.toNat]) (by simpa using hf)
      (Stream.rest_advance hs)
    simp [decodeUtf8, hp, hn, r, Stream.advance_advance]

theorem decodeString_encode (bytes : BString) {s : Stream} {post : List Bool}
    (hs : s.rest = BeeFish.encode bytes ++ post) :
    decodeString s = some (fromUtf8 bytes, s.advance (BeeFish.encode bytes)) := by
  have h1 : s.rest = true :: (bytes.flatMap encodeChar ++ false :: post) := by
    rw [hs]
    simp [BeeFish.encode]
  have h2 := Stream.rest_advance_cons h1
  have h3 := Stream.rest_advance h2
  have hl : bytes.length < s.bits.length + 1 :=
    lt_of_le_of_lt (length_le_flatMap_encodeChar bytes)
      (Stream.length_lt_of_rest (s := s.advance [true]) h2)
  have r := decodeUtf8_encode bytes (s.bits.length + 1) [] hl h2
  have r' := Stream.read_of_rest h3
  have he : [true] ++ bytes.flatMap encodeChar ++ [false] = BeeFish.encode bytes := by
    simp [BeeFish.encode]
  have hm : (bytes.map UInt8.toNat).map UInt8.ofNat = bytes := by
    rw [List.map_map]
    exact (List.map_congr_left fun b _ => UInt8.ofNat_toNat).trans (List.map_id _)
  simp only [Stream.advance_advance, List.nil_append] at r r'
  rw [he] at r'
  simp only [decodeString, Stream.read_of_rest h1, guard_true, Option.bind_eq_bind, Option.pure_def,
    Option.bind_some,
    Stream.advance_bits, r, r', advance_code (LawfulEncoded.isCode bytes), hm]

/-! ### Keys read back -/

/-- The client reads the text of the id back without its byte order mark. -/
theorem decodeKey_encodeKey {id : Id} {key : BString} (h : id.encodeKey = some key) :
    Id.decodeKey key = some ⟨fromUtf8 (Utf8.encode id.name), id.milliseconds, id.increment⟩ := by
  rw [encodeKey_bits, Option.some.injEq] at h
  subst h
  -- the bits of the string are the code of the id and zeros
  obtain ⟨k, hk⟩ := Stack.toData_bits ⟨BeeFish.encode id.toServer, 0, 0⟩
  rw [Stack.toData, toData_eq_toString _ le_rfl] at hk
  have hs : (Stream.ofString (Stream.empty.write (BeeFish.encode id.toServer)).toString).rest =
      true :: (BeeFish.encode (Utf8.encode id.name) ++ true :: (BeeFish.encode id.milliseconds ++
        (BeeFish.encode id.increment ++ false :: false :: List.replicate k false))) := by
    rw [Stream.rest, Stream.ofString, List.drop_zero]
    refine hk.trans ?_
    simp [BeeFish.encode, Id.toServer]
  have h0 :
      (Stream.ofString (Stream.empty.write (BeeFish.encode id.toServer)).toString).count = 0 := rfl
  simp only [Id.decodeKey, atob_btoa, Option.bind_eq_bind, Option.bind_some]
  generalize Stream.ofString (Stream.empty.write (BeeFish.encode id.toServer)).toString =
    stream at hs h0
  have h1 := Stream.rest_advance_cons hs
  have h2 := Stream.rest_advance h1
  have h3 := Stream.rest_advance_cons h2
  have h4 := Stream.rest_advance h3
  have h5 := Stream.rest_advance h4
  have h6 := Stream.rest_advance_cons h5
  have hcount :
    tally (tally
    (tally (tally (tally (tally (tally stream.count [true]) (BeeFish.encode (Utf8.encode id.name)))
      [true]) (BeeFish.encode id.milliseconds)) (BeeFish.encode id.increment)) [false])
        [false] = 0 := by
    rw [h0, tally_code (LawfulEncoded.isCode (Utf8.encode id.name)),
      tally_code (LawfulEncoded.isCode id.milliseconds),
      tally_code (LawfulEncoded.isCode id.increment)]
    rfl
  simp only [Stream.read_of_rest hs, decodeString_encode _ h1, Stream.read_of_rest h2,
    decodeNumber_encode _ h3,
    decodeNumber_encode _ h4, Stream.read_of_rest h5, Stream.read_of_rest h6, Option.pure_def,
      Option.bind_some, guard_true,
    Stream.advance_count, hcount]

theorem fromUtf8_encode_iff (name : List Char) : fromUtf8 (Utf8.encode name) = name ↔
    name.head? ≠ some byteOrderMark := by
  rw [fromUtf8, Utf8.decode_encode]
  cases name with
  | nil => simp
  | cons c cs =>
    by_cases h : c = byteOrderMark
    · simp only [h, if_true, List.head?_cons, ne_eq, not_true_eq_false, iff_false]
      intro he
      simpa using congrArg List.length he
    · simp [h]

/-- Client and server agree on an id: they make one key for it, and both read
the id from the key. -/
def Agrees (id : Id) : Prop :=
  ∃ key, id.encodeKey = some key ∧ id.toServer.createKey = some key ∧
    BeeFish.Id.decodeKey key = some id.toServer ∧ Id.decodeKey key = some id

theorem agrees_of_fromUtf8 {id : Id} : Agrees id ↔ fromUtf8 (Utf8.encode id.name) = id.name := by
  obtain ⟨key, hc, hd⟩ := decodeKey_createKey id.toServer
  have he : id.encodeKey = some key := (encodeKey_eq id).trans hc
  constructor
  · rintro ⟨key', he', -, -, hr⟩
    rw [decodeKey_encodeKey he', Option.some.injEq] at hr
    exact congrArg Id.name hr
  · intro hn
    refine ⟨key, he, hc, hd, ?_⟩
    rw [decodeKey_encodeKey he, hn]

/-- **Client and server agree on every id whose name does not begin with a byte
order mark.** -/
theorem agrees_iff (id : Id) : Agrees id ↔ id.name.head? ≠ some byteOrderMark :=
  agrees_of_fromUtf8.trans (fromUtf8_encode_iff id.name)

/-- They do not agree on the id of a byte order mark and a letter. -/
theorem not_agrees_byteOrderMark : ¬ Agrees ⟨[byteOrderMark, 'a'], 1700000000000, 0⟩ := by
  rw [agrees_of_fromUtf8, fromUtf8_encode_iff]
  simp

end Client

end BeeFish
