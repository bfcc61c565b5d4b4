/-
# Base64 in pieces

A `Base64EncodeStream` keeps up to two bytes until the third of their chunk is
written, and encodes what it has when it is flushed. A `Base64DecodeStream`
keeps up to three sextets. So the text that comes out does not depend on how
the bytes are split over writes, and neither do the bytes that are decoded
(`base64_writes`). The text is the standard one, that of `btoa`.

Key definitions: `Base64Streambuf`, `Base64DecodeStream`.
-/
import BeeFish.Btoa

namespace BeeFish

open Base64

/-! ### The streams -/

/-- `Base64Streambuf`: the destination and the bytes of a chunk that is not
complete. -/
structure Base64Streambuf where
  dest : BString
  buffer : BString
  deriving DecidableEq, Repr

namespace Base64Streambuf

/-- A new one over an empty destination. -/
def new : Base64Streambuf := ⟨[], []⟩

/-- `Base64Streambuf::overflow` -/
def overflow (s : Base64Streambuf) (c : UInt8) : Base64Streambuf :=
  let buffer := s.buffer ++ [c]
  if buffer.length = 3 then ⟨s.dest ++ encodeChunk buffer, []⟩ else ⟨s.dest, buffer⟩

/-- A write to the `Base64EncodeStream`, byte by byte. -/
def write (s : Base64Streambuf) (source : BString) : Base64Streambuf := source.foldl overflow s

/-- `Base64Streambuf::sync` -/
def sync (s : Base64Streambuf) : Base64Streambuf :=
  if 0 < s.buffer.length then ⟨s.dest ++ encodeChunk s.buffer, []⟩ else s

end Base64Streambuf

/-- `Base64DecodeStream`: the output and the sextets of a group that is not
complete. -/
structure Base64DecodeStream where
  output : BString
  sextets : List ℕ
  deriving DecidableEq, Repr

namespace Base64DecodeStream

def new : Base64DecodeStream := ⟨[], []⟩

/-- `decodeBase64Stream`; none for an invalid character. -/
def decodeBase64Stream (d : Base64DecodeStream) (c : UInt8) : Option Base64DecodeStream := do
  let val ← Base64.decodeChar c
  let sextets := d.sextets ++ [val]
  if sextets.length = 4 then return ⟨d.output ++ decodeSextets sextets, []⟩
    else return ⟨d.output, sextets⟩

/-- `decoder << source`; none where it throws. -/
def write (d : Base64DecodeStream) (source : BString) : Option Base64DecodeStream :=
  source.foldlM decodeBase64Stream d

end Base64DecodeStream

/-! ### Writes -/

namespace Base64Streambuf

/-- Successive writes are one. -/
theorem foldl_write (s : Base64Streambuf) (writes : List BString) :
    writes.foldl write s = s.write writes.flatten := by
  unfold write
  rw [List.foldl_flatten]

theorem overflow_of_eq {s : Base64Streambuf} {c : UInt8} (h : (s.buffer ++ [c]).length = 3) :
    s.overflow c = ⟨s.dest ++ encodeChunk (s.buffer ++ [c]), []⟩ := if_pos h

theorem overflow_of_ne {s : Base64Streambuf} {c : UInt8} (h : (s.buffer ++ [c]).length ≠ 3) :
    s.overflow c = ⟨s.dest, s.buffer ++ [c]⟩ := if_neg h

/-- The bytes of a write come to the destination in chunks, and the last ones
when the stream is flushed. -/
theorem dest_sync_write : ∀ (source : BString) (s : Base64Streambuf),
    (s.write source).sync.dest = s.dest ++ encodeFrom s.buffer source
  | [], s => by
    show s.sync.dest = _
    unfold sync
    cases hb : s.buffer <;> simp [encodeFrom]
  | c :: source, s => by
    have hwrite : s.write (c :: source) = (s.overflow c).write source := rfl
    have hencode : encodeFrom s.buffer (c :: source) =
        if (s.buffer ++ [c]).length = 3 then encodeChunk (s.buffer ++ [c]) ++ encodeFrom [] source
        else encodeFrom (s.buffer ++ [c]) source := by
      cases hb : s.buffer <;> rfl
    rw [hwrite, dest_sync_write source, hencode]
    by_cases h : (s.buffer ++ [c]).length = 3
    · rw [overflow_of_eq h, if_pos h, List.append_assoc]
    · rw [overflow_of_ne h, if_neg h]

end Base64Streambuf

namespace Base64DecodeStream

theorem foldlM_write : ∀ (reads : List BString) (d : Base64DecodeStream),
    reads.foldlM write d = d.write reads.flatten
  | [], _ => rfl
  | read :: reads, d => by
    rw [List.foldlM_cons, List.flatten_cons]
    unfold write
    rw [List.foldlM_append]
    exact bind_congr fun d => foldlM_write reads d

/-- The bytes of the groups come to the output. -/
theorem output_write : ∀ (source : BString) (d : Base64DecodeStream),
    (d.write source).map output = (decodeFrom d.sextets source).map (d.output ++ ·)
  | [], d => by simp [write, decodeFrom]
  | c :: source, d => by
    have hwrite : d.write (c :: source) = (d.decodeBase64Stream c).bind fun d => d.write source :=
      rfl
    rw [hwrite, decodeFrom, decodeBase64Stream]
    cases Base64.decodeChar c with
    | none => rfl
    | some val =>
      simp only [Option.bind_eq_bind, Option.bind_some]
      by_cases h : (d.sextets ++ [val]).length = 4
      · simp only [h, if_true, Option.pure_def, Option.bind_some, output_write source]
        cases decodeFrom [] source <;> simp
      · simp only [h, if_false, Option.pure_def, Option.bind_some, output_write source]

end Base64DecodeStream

/-- **Base64 does not depend on the writes.** However bytes are split over
writes to the encoder, after a flush the output is their standard text, and
however this text is split over writes to the decoder, its output is the
bytes. -/
theorem base64_writes (writes : List BString) :
    let output := (writes.foldl Base64Streambuf.write .new).sync.dest
    output = Client.btoa writes.flatten ∧ ∀ reads : List BString, reads.flatten = output →
      ∃ decoder, reads.foldlM Base64DecodeStream.write .new = some decoder ∧
        decoder.output = writes.flatten := by
  intro output
  have houtput : output = BString.toBase64 writes.flatten := by
    show (writes.foldl Base64Streambuf.write .new).sync.dest = _
    rw [Base64Streambuf.foldl_write, Base64Streambuf.dest_sync_write]
    rfl
  refine ⟨houtput.trans (Client.btoa_eq_toBase64 _).symm, fun reads hreads => ?_⟩
  have hdecode : (Base64DecodeStream.new.write reads.flatten).map Base64DecodeStream.output =
    some writes.flatten := by
    calc (Base64DecodeStream.new.write reads.flatten).map Base64DecodeStream.output
        = (decodeFrom [] reads.flatten).map ([] ++ ·) := Base64DecodeStream.output_write _ _
      _ = BString.fromBase64 reads.flatten := by simp [BString.fromBase64]
      _ = some writes.flatten := by rw [hreads, houtput, fromBase64_toBase64]
  rw [Base64DecodeStream.foldlM_write]
  exact Option.map_eq_some_iff.mp hdecode

/-- Five bytes in two writes, and their text in three. -/
theorem base64_writes_five :
    ∃ decoder,
      [text "SG", text "VsbG", text "8="].foldlM Base64DecodeStream.write .new = some decoder ∧
    decoder.output = text "Hello" :=
  (base64_writes [text "Hell", text "o"]).2 [text "SG", text "VsbG", text "8="] (by decide +kernel)

end BeeFish
