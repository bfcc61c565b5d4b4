/-
# The keys of ids

`Id::createKey` writes an id to a stack, packs the bits to bytes, the last
byte filled up with zeros, and encodes the bytes in base64. `Id::decodeKey`
goes the other way; the stack it reads from takes the bits of the bytes as
long as their count is not negative, and the code of an id is balanced, so
the zeros at the end are left out and the key gives the id back
(`decodeKey_createKey`), if its numbers come back through doubles
(`fromKey_iff`).

Key definitions: `Stack.toData`, `Stack.fromData`, `Id.createKey`,
`Id.decodeKey`, `PowerEncoding.Exact`.
-/
import BeeFish.Base64
import BeeFish.Balance

namespace BeeFish

open BitCode

/-! ### Bits and bytes -/

/-- The bits of a `bitset<8>` of a byte, the highest first. -/
def bitset (byte : UInt8) : List Bool :=
  (List.range 8).map fun bitIndex => byte.toNat.testBit (7 - bitIndex)

/-- `to_ulong` of a `bitset<8>`, the highest bit first. -/
def toByte (bits : List Bool) : UInt8 :=
  UInt8.ofNat (bits.foldl (fun value bit => 2 * value + bit.toNat) 0)

theorem bitset_toByte {bits : List Bool} (h : bits.length = 8) : bitset (toByte bits) = bits := by
  have key : ∀ b0 b1 b2 b3 b4 b5 b6 b7 : Bool,
      bitset (toByte [b0, b1, b2, b3, b4, b5, b6, b7]) =
        [b0, b1, b2, b3, b4, b5, b6, b7] := by decide +kernel
  match bits, h with
  | [b0, b1, b2, b3, b4, b5, b6, b7], _ => exact key b0 b1 b2 b3 b4 b5 b6 b7

namespace Stack

/-- A `bitset<8>` of zeros. -/
def zeros : List Bool := List.replicate 8 false

/-- The loop of `Stack::toData` over the bits of the stack: `bits` are the
bits of the next byte, and `bitCount` of them are set. -/
def toDataFrom (bits : List Bool) (bitCount : ℕ) : List Bool → BString
  | [] => if 0 < bitCount then [toByte bits] else []
  | bit :: v =>
    let bits := bits.set bitCount bit
    if bitCount + 1 = 8 then toByte bits :: toDataFrom zeros 0 v
      else toDataFrom bits (bitCount + 1) v

/-- `Stack::toData` -/
def toData (s : Stack) : BString := toDataFrom zeros 0 s.bits

/-- One bit of `Stack(data)`: it is counted as long as the count is not
negative, and kept if the count does not turn negative with it. -/
def takeBit : ℤ × Stack → Bool → ℤ × Stack
  | (count, s), bit =>
    if 0 ≤ count then
      let count := if bit then count + 1 else count - 1
      if 0 ≤ count then (count, s.push_back bit) else (count, s)
    else (count, s)

/-- `Stack(data)` -/
def fromData (data : BString) : Stack :=
  let (_, s) := (data.flatMap bitset).foldl takeBit (0, empty)
  s

/-! ### Packing -/

theorem toDataFrom_bits : ∀ (w p : List Bool), p.length < 8 →
    ∃ k, (toDataFrom (p ++ List.replicate (8 - p.length) false) p.length w).flatMap bitset =
      p ++ w ++ List.replicate k false
  | [], p, hp => by
    have hl : (p ++ List.replicate (8 - p.length) false).length = 8 := by simp; omega
    by_cases h : 0 < p.length
    · exact ⟨8 - p.length, by simp [toDataFrom, h, bitset_toByte hl]⟩
    · have hnil : p = [] := List.length_eq_zero_iff.mp (by omega)
      exact ⟨0, by simp [toDataFrom, hnil]⟩
  | b :: w, p, hp => by
    have hset : (p ++ List.replicate (8 - p.length) false).set p.length b =
        (p ++ [b]) ++ List.replicate (8 - (p ++ [b]).length) false := by
      obtain ⟨n, hn⟩ : ∃ n, 8 - p.length = n + 1 := ⟨7 - p.length, by omega⟩
      have hn' : 8 - (p ++ [b]).length = n := by simp; omega
      rw [hn, hn', List.set_append_right _ _ le_rfl, List.replicate_succ]
      simp
    rw [toDataFrom, hset]
    by_cases h : p.length + 1 = 8
    · obtain ⟨k, hk⟩ := toDataFrom_bits w [] (by decide)
      have hl : (p ++ [b]).length = 8 := by simpa using h
      refine ⟨k, ?_⟩
      have hk' : (toDataFrom zeros 0 w).flatMap bitset = w ++ List.replicate k false := by
        simpa [zeros] using hk
      simp only [if_pos h, hl, Nat.sub_self, List.replicate_zero, List.append_nil,
        List.flatMap_cons, bitset_toByte hl,
        hk']
      simp
    · obtain ⟨k, hk⟩ := toDataFrom_bits w (p ++ [b]) (by simp; omega)
      refine ⟨k, ?_⟩
      simp only [if_neg h]
      rw [show p.length + 1 = (p ++ [b]).length by simp, hk]
      simp

/-- The bytes of a stack hold its bits and zeros after them. -/
theorem toData_bits (s : Stack) :
    ∃ k, s.toData.flatMap bitset = s.bits ++ List.replicate k false := by
  simpa [toData, zeros] using toDataFrom_bits s.bits [] (by decide)

/-! ### Unpacking -/

/-- After the count turned negative no bit is taken. -/
theorem foldl_takeBit_neg {count : ℤ} (h : count < 0) (s : Stack) : ∀ v : List Bool,
    v.foldl takeBit (count, s) = (count, s)
  | [] => rfl
  | b :: v => by
    have hb : takeBit (count, s) b = (count, s) := if_neg (by omega)
    rw [List.foldl_cons, hb, foldl_takeBit_neg h s v]

/-- At the ground a zero is not taken, and nothing after it. -/
theorem foldl_takeBit_ground (s : Stack) {p : List Bool} (hp : p.head? ≠ some true) :
    (p.foldl takeBit (0, s)).2 = s := by
  match p, hp with
  | [], _ => rfl
  | false :: p, _ =>
    have hb : takeBit (0, s) false = (-1, s) := rfl
    rw [List.foldl_cons, hb, foldl_takeBit_neg (by decide)]

/-- A one is always taken. -/
theorem takeBit_true (h : ℕ) (s : Stack) :
    takeBit ((h : ℤ), s) true = (((h + 1 : ℕ) : ℤ), s.push_back true) := by
  simp [takeBit]
  omega

/-- Above the ground a zero is taken. -/
theorem takeBit_false {h : ℕ} (hpos : 0 < h) (s : Stack) :
    takeBit ((h : ℤ), s) false = (((h - 1 : ℕ) : ℤ), s.push_back false) := by
  have h0 : (0 : ℤ) ≤ h - 1 := by omega
  have hcast : ((h - 1 : ℕ) : ℤ) = h - 1 := by omega
  simp only [takeBit, hcast, Int.natCast_nonneg, Bool.false_eq_true, if_true, if_false, if_pos h0]

/-- A walk that never goes below the ground is taken whole. -/
theorem foldl_takeBit_above : ∀ (w : List Bool) (h : ℕ) (s : Stack), Above h w →
    w.foldl takeBit ((h : ℤ), s) = ((height h w : ℤ), w.foldl push_back s)
  | [], _, _, _ => rfl
  | true :: w, h, s, hw => by
    rw [List.foldl_cons, List.foldl_cons, takeBit_true]
    exact foldl_takeBit_above w (h + 1) _ hw.of_true
  | false :: w, h, s, hw => by
    rw [List.foldl_cons, List.foldl_cons, takeBit_false hw.pos]
    exact foldl_takeBit_above w (h - 1) _ hw.of_false

theorem foldl_push_back_bits : ∀ (v : List Bool) (s : Stack),
    (v.foldl push_back s).bits = s.bits ++ v
  | [], _ => by simp
  | b :: v, _ => by
    rw [List.foldl_cons, foldl_push_back_bits v]
    simp

theorem foldl_push_back_it : ∀ (v : List Bool) (s : Stack), (v.foldl push_back s).it = s.it
  | [], _ => rfl
  | _ :: v, _ => foldl_push_back_it v _

/-- Bytes that hold a walk from the ground and back are read up to the end of
the walk, unless a one comes next. -/
theorem fromData_of_bits {data : BString} {w p : List Bool} (hd : data.flatMap bitset = w ++ p)
    (hw : Above 0 w)
    (hc : w.count true = w.count false) (hp : p.head? ≠ some true) : fromData data = ⟨w, 0, 0⟩ := by
  have h0 : height 0 w = 0 := by
    have := hw.height_eq
    omega
  have htake : w.foldl takeBit (0, empty) = (0, w.foldl push_back empty) := by
    have := foldl_takeBit_above w 0 empty hw
    rwa [h0] at this
  have hb := foldl_push_back_bits w empty
  have hcount := foldl_push_back_count w empty
  rw [empty_count, h0] at hcount
  simp only [fromData, hd, List.foldl_append, htake, foldl_takeBit_ground _ hp]
  rw [Stack.mk.injEq]
  exact ⟨by simpa using hb, hcount, foldl_push_back_it w empty⟩

/-- The padding is zeros. -/
theorem head?_replicate_false (k : ℕ) : (List.replicate k false).head? ≠ some true := by
  cases k <;> simp [List.replicate_succ]

/-- A code is read back from its bytes. -/
theorem fromData_toData {s : Stack} (h : IsCode s.bits) : fromData s.toData = ⟨s.bits, 0, 0⟩ := by
  obtain ⟨k, hk⟩ := s.toData_bits
  apply fromData_of_bits hk (Above.of_closes h) _ (head?_replicate_false k)
  have := Closes.count h
  omega

/-- **A balanced bit sequence is read back from its bytes**: where no
beginning has more zeros than ones, and the whole as many of both. -/
theorem fromData_toData_of_balanced (s : Stack)
    (hbeginning : ∀ u, u <+: s.bits → u.count false ≤ u.count true)
    (hall : s.bits.count false = s.bits.count true) : fromData s.toData = ⟨s.bits, 0, 0⟩ := by
  obtain ⟨k, hk⟩ := s.toData_bits
  apply fromData_of_bits hk _ hall.symm (head?_replicate_false k)
  intro u hu
  rw [Nat.zero_add]
  exact hbeginning u hu

theorem fromData_toData_of_balanced_ten :
    fromData (toData ⟨[true, false, true, true, false, true, false, false, true, false], 0, 0⟩) =
      ⟨[true, false, true, true, false, true, false, false, true, false], 0, 0⟩ := by
  apply fromData_toData_of_balanced
  · intro u hu
    rw [← List.mem_inits] at hu
    revert u
    decide
  · decide

end Stack

/-! ### Keys of ids -/

/-- `Id::createKey`; none where it throws. -/
def Id.createKey (id : Id) : Option BString :=
  let stream := (encode id).foldl Stack.writeBit .empty
  if stream.count ≠ 0 then none else some stream.toData.toBase64

/-- `Id::decodeKey`; none where it throws. -/
def Id.decodeKeyWith (read : NumberReader) (key : BString) : Option Id := do
  let raw ← key.fromBase64
  let stream := Stack.fromData raw
  let (bit, stream) := stream.readBit
  if bit then
    let (name, stream) ← decodeString read stream
    let (timestamp, stream) ← decodeTimestamp read stream
    let (bit, _) := stream.readBit
    if bit then none else return ⟨name, timestamp⟩
  else none

def Id.decodeKey (key : BString) : Option Id := Id.decodeKeyWith read key

/-- `Id::fromKey` -/
def Id.fromKey (key : BString) : Option Id := Id.decodeKey key

theorem decodeKey_of_stack {read : NumberReader} {key raw : BString}
    (h : key.fromBase64 = some raw) :
    Id.decodeKeyWith read key = (decodeId read (Stack.fromData raw)).map Prod.fst := by
  simp only [Id.decodeKeyWith, h, decodeId, Option.bind_eq_bind, Option.bind_some]
  split
  · cases decodeString read (Stack.fromData raw).readBit.2 with
    | none => rfl
    | some r =>
      simp only [Option.bind_some]
      cases decodeTimestamp read r.2 with
      | none => rfl
      | some t =>
        simp only [Option.bind_some]
        split <;> rfl
  · rfl

/-- What is read from the key of some bits. -/
theorem decodeKey_of_isCode {read : NumberReader} {bits : List Bool} (h : IsCode bits) :
    Id.decodeKeyWith read (bits.foldl Stack.writeBit .empty).toData.toBase64 =
      (decodeId read ⟨bits, 0, 0⟩).map Prod.fst := by
  have hbits : (bits.foldl Stack.writeBit .empty).bits = bits := by simp [Stack.foldl_writeBit_bits]
  have hcode : IsCode (bits.foldl Stack.writeBit .empty).bits := by rwa [hbits]
  rw [decodeKey_of_stack (fromBase64_toBase64 _), Stack.fromData_toData hcode, hbits]

theorem createKey_eq (id : Id) :
    id.createKey = some ((encode id).foldl Stack.writeBit .empty).toData.toBase64 := by
  have hc := Stack.foldl_writeBit_count (encode id) .empty 0 rfl
  rw [height_closes (LawfulEncoded.isCode id)] at hc
  exact if_neg (not_not.mpr hc)

theorem decodeKey_createKey (id : Id) : ∃ key, id.createKey = some key ∧
    Id.decodeKey key = some id := by
  refine ⟨_, createKey_eq id, ?_⟩
  rw [Id.decodeKey, decodeKey_of_isCode (LawfulEncoded.isCode id)]
  have hrest : Stack.rest ⟨encode id, 0, 0⟩ = encode id ++ [] := by simp [Stack.rest]
  have hid : decodeId read ⟨encode id, 0, 0⟩ = some (id, _) := decode_id id hrest
  rw [hid]
  rfl

/-! ### Ids with numbers in doubles -/

namespace PowerEncoding

/-- `Id::createKey` -/
def createKey (fuel : ℕ) (id : Id) : Option BString := do
  let bits ← (KeyValue.id id).write fuel
  let stream := bits.foldl Stack.writeBit .empty
  if stream.count ≠ 0 then none else some stream.toData.toBase64

/-- `Id::fromKey` -/
def fromKey (key : BString) : Option Id := Id.decodeKeyWith read key

/-- The number is a double, and none of its last digits are near to a power of two. -/
def Exact (value : ℕ) : Prop := toDouble value = value ∧ raised value = 0

instance (value : ℕ) : Decidable (Exact value) := inferInstanceAs (Decidable (_ ∧ _))

/-- The number that is read for one that is written. -/
def readBack (value : ℕ) : ℕ := if toDouble value = 2 ^ 64 then 0 else placed (toDouble value)

variable {value : ℕ}

theorem Written.reads (h : Written value) (hvalue : value ≤ 2 ^ 64) :
    ReadsNumber read (code (toDouble value)) (readBack value) :=
  reads_code _ (short_toDouble value) (toDouble_le hvalue) h

theorem Exact.written (h : Exact value) : Written value := by
  rw [Written, h.1, placed, if_pos h.2]
  exact Nat.le_add_right _ _

/-- Only exact numbers come back. -/
theorem readBack_eq_self (hvalue : value < 2 ^ 64) : readBack value = value ↔ Exact value := by
  unfold readBack
  constructor
  · intro h
    split_ifs at h with htop
    · rw [← h, toDouble_of_lt (Nat.two_pow_pos 53)] at htop
      cases htop
    · have hshort : Binary.Short 53 value :=
        h ▸ short_placed (short_toDouble value) (toDouble_le hvalue.le)
      have hd := toDouble_of_short hshort
      refine ⟨hd, ?_⟩
      by_contra hraised
      have hlt : value % 2 ^ raised value < 2 ^ raised value := Nat.mod_lt _ (Nat.two_pow_pos _)
      rw [hd, placed_of_raised hraised] at h
      omega
  · intro h
    rw [h.1, if_neg hvalue.ne, placed, if_pos h.2]

/-- Numbers of today are exact. -/
theorem exact_of_lt (h : value < 2 ^ 49 - 1) : Exact value :=
  ⟨toDouble_of_lt (by omega), by_contra fun hraised => not_near_of_lt h (near_raised hraised)⟩

end PowerEncoding

open PowerEncoding

theorem number_mem_id {id : Id} {value : ℕ} : KeyPart.number value ∈ (KeyValue.id id).parts ↔
    value = id.timestamp.milliseconds ∨ value = id.timestamp.increment := by
  simp [KeyValue.parts, Timestamp.parts]

theorem flatMap_id {f : KeyPart → List Bool} {id : Id} {u v : List Bool}
    (hbit : ∀ b, f (.bit b) = [b])
    (hname : f (.string id.name) = encode id.name)
    (hu : f (.number id.timestamp.milliseconds) = true :: u)
    (hv : f (.number id.timestamp.increment) = true :: v) :
    (KeyValue.id id).parts.flatMap f = idBitsOf id.name u v := by
  simp [KeyValue.parts, Timestamp.parts, hbit, hname, hu, hv, idBitsOf, timestampBits]

theorem code_id (id : Id) : (KeyValue.id id).parts.flatMap KeyPart.code =
    idBitsOf id.name (code (toDouble id.timestamp.milliseconds))
      (code (toDouble id.timestamp.increment)) :=
  flatMap_id (fun _ => rfl) rfl rfl rfl

theorem returns_createKey {id : Id} {bits : List Bool} (h : Returns ((KeyValue.id id).write ·) bits)
    (hcode : IsCode bits) :
    Returns (PowerEncoding.createKey · id) (bits.foldl Stack.writeBit .empty).toData.toBase64 := by
  have hcount : (bits.foldl Stack.writeBit .empty).count = 0 := by
    rw [Stack.foldl_writeBit_count _ .empty 0 rfl, height_closes hcode]
  obtain ⟨n, hn⟩ := h
  refine ⟨n, fun fuel hf => ?_⟩
  have hwrite : (KeyValue.id id).write fuel = some bits := hn fuel hf
  show PowerEncoding.createKey fuel id = _
  rw [PowerEncoding.createKey, hwrite]
  exact if_neg (not_not.mpr hcount)

/-- What a written id is read back as. -/
theorem fromKey_of_written (id : Id) (hms : id.timestamp.milliseconds < 2 ^ 64)
    (hinc : id.timestamp.increment < 2 ^ 64)
    (hwms : Written id.timestamp.milliseconds) (hwinc : Written id.timestamp.increment) :
    ∃ key, Returns (PowerEncoding.createKey · id) key ∧ PowerEncoding.fromKey key =
      some ⟨id.name, readBack id.timestamp.milliseconds, readBack id.timestamp.increment⟩ := by
  have hparts := returns_parts (KeyValue.id id).parts fun value hmem => by
    rcases number_mem_id.mp hmem with rfl | rfl
    · exact ⟨hms, hwms⟩
    · exact ⟨hinc, hwinc⟩
  have hcode := (KeyValue.id id).isCode_code
  refine ⟨_, returns_createKey hparts hcode, ?_⟩
  have hrest :
    Stack.rest ⟨idBitsOf id.name (code (toDouble id.timestamp.milliseconds))
    (code (toDouble id.timestamp.increment)), 0, 0⟩ =
      idBitsOf id.name (code (toDouble id.timestamp.milliseconds))
        (code (toDouble id.timestamp.increment)) ++ [] := by simp [Stack.rest]
  have hchars : ReadsChars PowerEncoding.read :=
    fun c => reads_write_of_lt c.toNat (c.toNat_lt.trans (by decide))
  rw [PowerEncoding.fromKey, decodeKey_of_isCode hcode, code_id,
    decodeId_of_reads hchars (hwms.reads hms.le) (hwinc.reads hinc.le) id.name hrest,
      Option.map_some]

/-- **An id is read back from its key** exactly when both of its numbers are exact. -/
theorem fromKey_iff (id : Id) (hms : id.timestamp.milliseconds < 2 ^ 64)
    (hinc : id.timestamp.increment < 2 ^ 64) :
    (∃ key, Returns (PowerEncoding.createKey · id) key ∧ PowerEncoding.fromKey key = some id) ↔
      Exact id.timestamp.milliseconds ∧ Exact id.timestamp.increment := by
  have hfits : (KeyValue.id id).Fits := fun value hmem => by
    rcases number_mem_id.mp hmem with rfl | rfl
    · exact hms
    · exact hinc
  constructor
  · rintro ⟨key, hkey, hfrom⟩
    obtain ⟨n, hn⟩ := hkey
    have hsome : PowerEncoding.createKey n id = some key := hn n le_rfl
    obtain ⟨bits, hbits, -⟩ := Option.bind_eq_some_iff.mp hsome
    have hwritten := KeyValue.written_of_write hfits hbits
    obtain ⟨key', hkey', hfrom'⟩ :=
      fromKey_of_written id hms hinc (hwritten _ (number_mem_id.mpr (Or.inl rfl)))
      (hwritten _ (number_mem_id.mpr (Or.inr rfl)))
    have hkey : Returns (PowerEncoding.createKey · id) key := ⟨n, hn⟩
    rw [← hkey.unique hkey', hfrom, Option.some_inj] at hfrom'
    have hback := congrArg Id.timestamp hfrom'
    exact ⟨(readBack_eq_self hms).mp (congrArg Timestamp.milliseconds hback).symm,
      (readBack_eq_self hinc).mp (congrArg Timestamp.increment hback).symm⟩
  · rintro ⟨hems, heinc⟩
    obtain ⟨key, hkey, hfrom⟩ := fromKey_of_written id hms hinc hems.written heinc.written
    rw [(readBack_eq_self hms).mpr hems, (readBack_eq_self hinc).mpr heinc] at hfrom
    exact ⟨key, hkey, hfrom⟩

/-- An id with a time of today. -/
theorem fromKey_iff_today :
    ∃ key, Returns (PowerEncoding.createKey · ⟨[97], 1763596800000, 2⟩) key ∧
    PowerEncoding.fromKey key = some ⟨[97], 1763596800000, 2⟩ :=
  (fromKey_iff ⟨[97], 1763596800000, 2⟩ (by decide) (by decide)).mpr ⟨exact_of_lt (by decide),
    exact_of_lt (by decide)⟩

/-- The milliseconds 2^49 - 1 are read back as 2^49. -/
theorem fromKey_iff_raised : ¬ ∀ id : Id, id.timestamp.milliseconds < 2 ^ 64 →
    id.timestamp.increment < 2 ^ 64 →
    ∃ key, Returns (PowerEncoding.createKey · id) key ∧ PowerEncoding.fromKey key = some id := by
  intro h
  obtain ⟨key, hkey, hfrom⟩ := h ⟨[97], 2 ^ 49 - 1, 0⟩ (by decide) (by decide)
  obtain ⟨key', hkey', hfrom'⟩ := fromKey_of_written ⟨[97], 2 ^ 49 - 1, 0⟩ (by decide) (by decide)
    (by decide +kernel)
    (by decide +kernel)
  rw [← hkey.unique hkey', hfrom, Option.some_inj] at hfrom'
  have hback : 2 ^ 49 - 1 = readBack (2 ^ 49 - 1) :=
    congrArg (fun id => id.timestamp.milliseconds) hfrom'
  exact absurd hback (by decide +kernel)

end BeeFish
