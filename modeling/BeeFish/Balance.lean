/-
# Codes are balanced

Every key that the source writes is a code: it takes as many zeros as ones, and
before its end it has taken more ones. So no key is the beginning of another
one, and the count of a stack, whether its bits are pushed, written or read,
comes to zero at the end of the key and not before. Writing a bit counts it
twice, so the count is then twice the height. This holds of a key exactly when
the writing of its numbers, which goes through doubles, comes to an end
(`balanced_iff`).

Key definitions: `KeyValue`, `KeyValue.parts`, `KeyValue.write`, `Balanced`.
-/
import BeeFish.Double
import BeeFish.JSONKey

namespace BeeFish

open BitCode

/-- What is written as a key. -/
inductive KeyValue where
  | number (value : ℕ)
  | string (value : BString)
  | timestamp (value : Timestamp)
  | id (value : Id)
  | node (L : Locale) (path : JSONPath)

/-- The bits that are written. -/
def KeyValue.bits : KeyValue → List Bool
  | number value => encode value
  | string value => encode value
  | timestamp value => encode value
  | id value => encode value
  | node L path => toKey L path

theorem KeyValue.isCode : ∀ key : KeyValue, IsCode key.bits
  | number value => LawfulEncoded.isCode value
  | string value => LawfulEncoded.isCode value
  | timestamp value => LawfulEncoded.isCode value
  | id value => LawfulEncoded.isCode value
  | node L path => isCode_toKey L path

/-! ### The parts of a key -/

/-- What is written with one `operator <<` or `writeBit`. -/
inductive KeyPart where
  | bit (bit : Bool)
  | number (value : ℕ)
  | string (value : BString)

/-- `operator <<` of a string, its characters first. -/
def PowerEncoding.writeChars (fuel : ℕ) : BString → Option (List Bool)
  | [] => some []
  | character :: string => do
    let u ← write fuel character.toNat
    let v ← writeChars fuel string
    return true :: u ++ v

def KeyPart.write (fuel : ℕ) : KeyPart → Option (List Bool)
  | bit b => some [b]
  | number value => (PowerEncoding.write fuel value).map (true :: ·)
  | string value =>
    (PowerEncoding.writeChars fuel value).map fun characters => true :: (characters ++ [false])

/-- The part with numbers as they are. -/
def KeyPart.bits : KeyPart → List Bool
  | bit b => [b]
  | number value => encode value
  | string value => encode value

def Timestamp.parts (t : Timestamp) : List KeyPart :=
  [.bit true, .number t.milliseconds, .number t.increment, .bit false]

/-- A component of the id of a node: there is one, its order, its type and its
value. -/
def componentParts (order : ℕ) (component : Component) : List KeyPart :=
  [.number true.toNat, .number order, .number component.type.toIndex,
    match component with
    | .integer position => .number position
    | .string property => .string property]

def KeyValue.parts : KeyValue → List KeyPart
  | number value => [.number value]
  | string value => [.string value]
  | timestamp value => value.parts
  | id value => .bit true :: .string value.name :: (value.timestamp.parts ++ [.bit false])
  | node L path =>
    let steps := resolve L path.steps
    .bit true :: ((idComponents L steps).flatMap fun component =>
      componentParts component.1 component.2) ++
      [.number false.toNat, .number (JSONPath.indexOf path.root steps), .bit false]

def writeParts (fuel : ℕ) : List KeyPart → Option (List Bool)
  | [] => some []
  | part :: parts => do
    let u ← part.write fuel
    let v ← writeParts fuel parts
    return u ++ v

/-- The bits that are written, with numbers in doubles. -/
def KeyValue.write (fuel : ℕ) (key : KeyValue) : Option (List Bool) := writeParts fuel key.parts

theorem componentParts_bits (order : ℕ) (component : Component) :
    (componentParts order component).flatMap KeyPart.bits = componentBits order component := by
  cases component with
  | integer position => simp [componentParts, KeyPart.bits, componentBits, Component.type, encode]
  | string property => simp [componentParts, KeyPart.bits, componentBits, Component.type, encode]

/-- The parts make the key. -/
theorem KeyValue.parts_bits (key : KeyValue) : key.parts.flatMap KeyPart.bits = key.bits := by
  cases key with
  | number value => simp [parts, KeyPart.bits, bits]
  | string value => simp [parts, KeyPart.bits, bits]
  | timestamp value => simp [parts, Timestamp.parts, KeyPart.bits, bits, encode]
  | id value => simp [parts, Timestamp.parts, KeyPart.bits, bits, encode]
  | node L path =>
    have hcomponents : ∀ cs : List (ℕ × Component),
        (cs.flatMap fun component => componentParts component.1 component.2).flatMap KeyPart.bits =
          componentsBits cs := by
      intro cs
      rw [List.flatMap_assoc, componentsBits]
      exact congrArg (fun f => List.flatMap f cs) (funext fun component => componentParts_bits _ _)
    show _ = toKey L path
    rw [toKey, JSONPath.index, toKeyFrom_nil, idBits, finishKey, parts, List.cons_append,
      List.flatMap_cons, List.flatMap_append,
      hcomponents]
    simp [KeyPart.bits, encode]

/-- The numbers of the key are of 64 bits. -/
def KeyValue.Fits (key : KeyValue) : Prop := ∀ value, .number value ∈ key.parts → value < 2 ^ 64

/-- The stack after reading so many bits. -/
def Stack.readBits : ℕ → Stack → Stack
  | 0, s => s
  | n + 1, s => Stack.readBits n s.readBit.2

/-- A balanced walk, with the counts of a stack along it: of bits pushed,
written and read. -/
structure Balanced (w : List Bool) : Prop where
  ends : w.count true = w.count false
  above : ∀ u, u <+: w → u ≠ [] → u ≠ w → u.count false < u.count true
  pushed : ∀ u, u <+: w → u ≠ [] → ((u.foldl Stack.push_back .empty).count = 0 ↔ u = w)
  written : ∀ u, u <+: w → u ≠ [] → ((u.foldl Stack.writeBit .empty).count = 0 ↔ u = w)
  read : ∀ u v, w = u ++ v → u ≠ [] → ((Stack.readBits u.length ⟨w, 0, 0⟩).count = 0 ↔ v = [])

/-! ### The count along a code -/

theorem Stack.foldl_push_back_count : ∀ (u : List Bool) (s : Stack),
    (u.foldl push_back s).count = height s.count u
  | [], _ => rfl
  | b :: u, s => by
    rw [List.foldl_cons, foldl_push_back_count u, push_back_count, countBit_eq_height,
      ← height_append,
      List.singleton_append]

/-- Each bit that is written is counted twice. -/
theorem Stack.foldl_writeBit_count : ∀ (u : List Bool) (s : Stack) (h : ℕ), s.count = 2 * h →
    (u.foldl writeBit s).count = 2 * height h u
  | [], _, _, hs => hs
  | b :: u, s, h, hs => by
    have hb : (s.writeBit b).count = 2 * height h [b] := by
      simp only [writeBit, push_back_count, hs, countBit]
      cases b with
      | true => simp; omega
      | false => simp; omega
    rw [List.foldl_cons, foldl_writeBit_count u _ _ hb, ← height_append, List.singleton_append]

theorem Stack.readBits_eq : ∀ (u : List Bool) {s : Stack} {v : List Bool}, s.rest = u ++ v →
    Stack.readBits u.length s = s.advance u
  | [], _, _, _ => by simp [Stack.readBits]
  | b :: u, s, v, hs => by
    have h1 := Stack.rest_advance_cons hs
    rw [List.length_cons, Stack.readBits, Stack.readBit_of_rest hs, readBits_eq u h1,
      Stack.advance_advance,
      List.singleton_append]

theorem balanced_of_isCode {w : List Bool} (hw : IsCode w) : Balanced w where
  ends := by simpa using hw.count
  above u hu hne hne' := by
    have hs := hw.stays_of_isPrefix hu hne'
    have hpos := height_pos_of_stays u 0 hs (Or.inr hne)
    have hcount := height_eq_of_stays u 0 hs
    omega
  pushed u hu hne := by
    rw [Stack.foldl_push_back_count]
    exact hw.height_eq_zero hu hne
  written u hu hne := by
    rw [Stack.foldl_writeBit_count u .empty 0 rfl, ← hw.height_eq_zero hu hne]
    omega
  read u v he hne := by
    have hrest : Stack.rest ⟨w, 0, 0⟩ = u ++ v := by simp [Stack.rest, he]
    rw [Stack.readBits_eq u hrest, Stack.advance_count, hw.height_eq_zero ⟨v, he.symm⟩ hne, he]
    simp

/-! ### Keys in doubles -/

/-- What is written for a part. -/
def KeyPart.code : KeyPart → List Bool
  | bit b => [b]
  | number value => true :: PowerEncoding.code (PowerEncoding.toDouble value)
  | string value => encode value

theorem returns_writeChars : ∀ string : BString,
    Returns (PowerEncoding.writeChars · string) (string.flatMap encodeChar)
  | [] => ⟨0, fun _ _ => rfl⟩
  | character :: string => by
    have hlt : character.toNat < 2 ^ 49 - 1 := character.toNat_lt.trans (by decide)
    obtain ⟨n, hn⟩ := PowerEncoding.returns_write_of_lt character.toNat hlt
    obtain ⟨m, hm⟩ := returns_writeChars string
    refine ⟨max n m, fun fuel hf => ?_⟩
    have hu := hn fuel ((le_max_left n m).trans hf)
    have hv := hm fuel ((le_max_right n m).trans hf)
    simp only at hu hv
    show PowerEncoding.writeChars fuel (character :: string) = _
    rw [PowerEncoding.writeChars, hu, hv]
    rfl

theorem returns_part :
    ∀ part : KeyPart, (∀ value, part = .number value → value < 2 ^ 64 ∧
      PowerEncoding.Written value) →
    Returns (part.write ·) part.code
  | .bit _, _ => ⟨0, fun _ _ => rfl⟩
  | .number value, h => ((h value rfl).2.returns (h value rfl).1.le).map (true :: ·)
  | .string value, _ =>
    (returns_writeChars value).map fun characters => true :: (characters ++ [false])

theorem returns_parts : ∀ parts : List KeyPart,
    (∀ value, .number value ∈ parts → value < 2 ^ 64 ∧ PowerEncoding.Written value) →
    Returns (writeParts · parts) (parts.flatMap KeyPart.code)
  | [], _ => ⟨0, fun _ _ => rfl⟩
  | part :: parts, h => by
    obtain ⟨n, hn⟩ := returns_part part fun value he => h value (he ▸ List.mem_cons_self)
    obtain ⟨m, hm⟩ := returns_parts parts fun value hmem => h value (List.mem_cons_of_mem _ hmem)
    refine ⟨max n m, fun fuel hf => ?_⟩
    have hu := hn fuel ((le_max_left n m).trans hf)
    have hv := hm fuel ((le_max_right n m).trans hf)
    simp only at hu hv
    show writeParts fuel (part :: parts) = _
    rw [writeParts, hu, hv]
    rfl

theorem writeParts_eq_none {fuel : ℕ} {part : KeyPart} (h : part.write fuel = none) :
    ∀ {parts : List KeyPart},
    part ∈ parts → writeParts fuel parts = none
  | first :: parts, hmem => by
    rw [writeParts]
    rcases List.mem_cons.mp hmem with rfl | hmem
    · rw [h]
      rfl
    · rw [writeParts_eq_none h hmem]
      cases first.write fuel <;> rfl

theorem KeyValue.written_of_write {key : KeyValue} {fuel : ℕ} {bits : List Bool} (hfits : key.Fits)
    (h : key.write fuel = some bits) :
    ∀ value, .number value ∈ key.parts → PowerEncoding.Written value := by
  intro value hmem
  by_contra hnot
  have hnone : (KeyPart.number value).write fuel = none := by
    rw [KeyPart.write, PowerEncoding.write_none_of_not hnot (hfits value hmem).le]
    rfl
  rw [KeyValue.write, writeParts_eq_none hnone hmem] at h
  cases h

/-- A key is written exactly when its numbers are. -/
theorem KeyValue.returns_iff {key : KeyValue} (hfits : key.Fits) :
    (∃ bits, Returns (key.write ·) bits) ↔ ∀ value, .number value ∈ key.parts →
      PowerEncoding.Written value := by
  constructor
  · rintro ⟨bits, n, hn⟩
    exact written_of_write hfits (hn n le_rfl)
  · exact fun h => ⟨_, returns_parts _ fun value hmem => ⟨hfits value hmem, h value hmem⟩⟩

theorem KeyValue.eq_of_returns {key : KeyValue} {bits : List Bool} (hfits : key.Fits)
    (h : Returns (key.write ·) bits) :
    bits = key.parts.flatMap KeyPart.code :=
  h.unique (returns_parts _ fun value hmem =>
    ⟨hfits value hmem, (returns_iff hfits).mp ⟨bits, h⟩ value hmem⟩)

theorem KeyPart.isCode_or : ∀ part : KeyPart, (∃ b, part = .bit b) ∨ IsCode part.code ∧
    IsCode part.bits
  | bit b => Or.inl ⟨b, rfl⟩
  | number value => Or.inr ⟨PowerEncoding.isCode_code _, LawfulEncoded.isCode value⟩
  | string value => Or.inr ⟨LawfulEncoded.isCode value, LawfulEncoded.isCode value⟩

theorem KeyPart.flatMap_eq_nil {parts : List KeyPart} : parts.flatMap KeyPart.code = [] ↔
    parts.flatMap KeyPart.bits = [] := by
  cases parts with
  | nil => rw [List.flatMap_nil, List.flatMap_nil]
  | cons part parts =>
    have hne : part.code ≠ [] ∧ part.bits ≠ [] := by
      rcases part.isCode_or with ⟨b, rfl⟩ | ⟨hcode, hbits⟩
      · exact ⟨List.cons_ne_nil b [], List.cons_ne_nil b []⟩
      · exact ⟨hcode.ne_nil, hbits.ne_nil⟩
    rw [List.flatMap_cons, List.flatMap_cons, List.append_eq_nil_iff, List.append_eq_nil_iff]
    exact iff_of_false (fun h => hne.1 h.1) (fun h => hne.2 h.1)

/-- Codes in the places of codes come down to the ground where those do. -/
theorem closes_parts : ∀ {parts : List KeyPart} {h : ℕ}, 0 < h →
    (Closes h (parts.flatMap KeyPart.code) ↔ Closes h (parts.flatMap KeyPart.bits))
  | [], _, _ => by rw [List.flatMap_nil, List.flatMap_nil]
  | part :: parts, h, hpos => by
    have ih : ∀ {h : ℕ}, 0 < h →
      (Closes h (parts.flatMap KeyPart.code) ↔ Closes h (parts.flatMap KeyPart.bits)) :=
      closes_parts
    rw [List.flatMap_cons, List.flatMap_cons]
    rcases part.isCode_or with ⟨b, rfl⟩ | ⟨hcode, hbits⟩
    · rw [KeyPart.code, KeyPart.bits, List.singleton_append, List.singleton_append]
      cases b with
      | true => rw [closes_true, closes_true, ih (Nat.succ_pos h)]
      | false =>
        have hrest : 1 < h → (Closes (h - 1) (parts.flatMap KeyPart.code) ↔
          Closes (h - 1) (parts.flatMap KeyPart.bits)) :=
          fun h1 => ih (by omega)
        rw [closes_false, closes_false, KeyPart.flatMap_eq_nil, and_congr_right hrest]
    · rw [hcode.closes_append hpos, hbits.closes_append hpos, ih hpos]

theorem KeyValue.isCode_code : ∀ key : KeyValue, IsCode (key.parts.flatMap KeyPart.code)
  | number value => by
    rw [parts, List.flatMap_singleton]
    exact PowerEncoding.isCode_code _
  | string value => by
    rw [parts, List.flatMap_singleton]
    exact LawfulEncoded.isCode value
  | timestamp value => isCode_of_parts (.timestamp value) rfl
  | id value => isCode_of_parts (.id value) rfl
  | node L path => isCode_of_parts (.node L path) rfl
where
  isCode_of_parts (key : KeyValue) {parts : List KeyPart} (h : key.parts = .bit true :: parts) :
      IsCode (key.parts.flatMap KeyPart.code) := by
    have hbits := key.isCode
    rw [← key.parts_bits, h] at hbits
    rw [h]
    exact (closes_parts Nat.one_pos).mpr hbits

/-- **A key is balanced and minimal**, and no beginning of another key, exactly
when each of its numbers is written. -/
theorem balanced_iff (key : KeyValue) (hfits : key.Fits) :
    (∃ bits, Returns (key.write ·) bits ∧ Balanced bits ∧
      ∀ (other : KeyValue) (bits' : List Bool), other.Fits → Returns (other.write ·) bits' →
        ¬ (bits <+: bits' ∧ bits ≠ bits')) ↔
      ∀ value, .number value ∈ key.parts → PowerEncoding.Written value := by
  rw [← KeyValue.returns_iff hfits]
  constructor
  · rintro ⟨bits, hbits, -⟩
    exact ⟨bits, hbits⟩
  · rintro ⟨bits, hbits⟩
    obtain rfl := KeyValue.eq_of_returns hfits hbits
    refine ⟨_, hbits, balanced_of_isCode key.isCode_code, fun other bits' hother hbits' h => ?_⟩
    obtain rfl := KeyValue.eq_of_returns hother hbits'
    exact h.2 (key.isCode_code.eq_of_isPrefix other.isCode_code h.1)

/-- An id with a time of today. -/
theorem balanced_iff_id : ∃ bits, Returns ((KeyValue.id ⟨[97], 1763596800000, 2⟩).write ·) bits ∧
    Balanced bits := by
  have hparts : ∀ value, .number value ∈ (KeyValue.id ⟨[97], 1763596800000, 2⟩).parts →
    value = 1763596800000 ∨ value = 2 := by
    simp [KeyValue.parts, Timestamp.parts]
  have hfits : (KeyValue.id ⟨[97], 1763596800000, 2⟩).Fits := fun value hmem => by
    rcases hparts value hmem with rfl | rfl <;> decide
  obtain ⟨bits, hbits, hbalanced, -⟩ := (balanced_iff _ hfits).mpr fun value hmem => by
    rcases hparts value hmem with rfl | rfl <;> decide +kernel
  exact ⟨bits, hbits, hbalanced⟩

/-- The largest numbers but some have no code. -/
theorem balanced_iff_stuck : ¬ ∀ key : KeyValue, key.Fits → ∃ bits, Returns (key.write ·) bits ∧
    Balanced bits := by
  intro h
  have hfits : (KeyValue.number 18446744073709529088).Fits := by
    simp [KeyValue.Fits, KeyValue.parts]
  obtain ⟨bits, hbits, -⟩ := h _ hfits
  have hwritten := (KeyValue.returns_iff hfits).mp ⟨bits, hbits⟩ _ List.mem_cons_self
  exact absurd hwritten (by decide +kernel)

end BeeFish
