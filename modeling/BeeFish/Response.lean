/-
# Writing a response

`ResponseStream` (https/response-stream.h) gathers what is written in a buffer
of one page and flushes it to the session, after the headers as a chunk if the
response has no length. `Response::write` writes the headers and the content,
and flushes. But `writeContent` has flushed by then, and `flush` writes a chunk
for an empty buffer too, which ends the body: the body is well formed exactly
when the first of these two writes a chunk that is not empty
(`write_isBody`).

Key definitions: `ResponseStream`, `writeContent`, `Response.write`.
-/
import BeeFish.Encoding
import BeeFish.Lib.Chunked
import Mathlib.Data.List.TakeWhile
import Mathlib.Data.PNat.Defs

namespace BeeFish

open Chunked

/-! ### What is served -/

/-- What an app serves: a file, its content, the pages of a bookmark with their
length, the JSON or the search results that are written, or the strings of the
`content` of an `{HTTP}` property, if that is a string. -/
inductive Serve where
  | file (content : BString)
  | content (content : BString)
  | data (contentLength : ℕ) (page : ℕ → BString)
  | json (written : BString)
  | query (written : BString)
  | http (strings : Option (List BString))

structure App where
  status : ℤ
  statusText : BString
  responseHeaders : List (BString × BString)
  serve : Serve

namespace App

/-- `ResponseHeaders::contains` -/
def contains (app : App) (key : BString) : Bool := app.responseHeaders.any (·.1 == key)

/-- `ResponseHeaders::operator []`: the last value of the key. -/
def header (app : App) (key : BString) : BString :=
  app.responseHeaders.foldl (fun value pair => if pair.1 = key then pair.2 else value) []

/-- `ResponseStream::setChunkedEncoding` -/
def chunkedEncoding (app : App) : Bool :=
  !app.contains (text "content-length") &&
    (app.contains (text "transfer-encoding") && app.header
      (text "transfer-encoding") == text "chunked")

/-- The text of the headers. -/
def headers (app : App) : BString :=
  text "HTTP/1.1 " ++ text (toString app.status) ++ text " " ++ app.statusText ++ crlf ++
    app.responseHeaders.flatMap (fun pair => pair.1 ++ text ": " ++ pair.2 ++ crlf) ++ crlf

end App

/-! ### Base 64 -/

namespace Base64DecodeStream

/-- `Base64DecodeStream::decodeChar` -/
def decodeChar (c : UInt8) : Option ℕ :=
  if 65 ≤ c ∧ c ≤ 90 then some (c.toNat - 65)
  else if 97 ≤ c ∧ c ≤ 122 then some (c.toNat - 97 + 26)
  else if 48 ≤ c ∧ c ≤ 57 then some (c.toNat - 48 + 52)
  else if c = 43 then some 62
  else if c = 47 then some 63
  else if c = 61 then some 64
  else none

/-- The octets of four sextets. -/
def octets (a b c d : ℕ) : BString :=
  [UInt8.ofNat (a <<< 2 ||| b >>> 4)] ++
    (if c ≠ 64 then [UInt8.ofNat ((b &&& 0xF) <<< 4 ||| c >>> 2)] else []) ++
    (if d ≠ 64 then [UInt8.ofNat ((c &&& 0x3) <<< 6 ||| d)] else [])

/-- `Base64DecodeStream::operator <<`: what it writes and the sextets that are
left; it throws at a character that is none. -/
def decode (sextets : List ℕ) : BString → Option (BString × List ℕ)
  | [] => some ([], sextets)
  | c :: source => do
    let val ← decodeChar c
    match sextets ++ [val] with
    | [a, b, c, d] => do
      let (out, sextets) ← decode [] source
      return (octets a b c d ++ out, sextets)
    | sextets => decode sextets source

end Base64DecodeStream

/-! ### The stream -/

/-- The stream of a session; the buffer has room for a byte. -/
structure ResponseStream where
  pageSize : ℕ
  buffer : BString
  bounded : buffer.length < pageSize
  bytesTransferred : ℕ
  chunkedEncoding : Bool
  writingHeaders : Bool
  /-- what has been written to the session -/
  session : BString

namespace ResponseStream

/-- `ResponseStream::ResponseStream` -/
def new (pageSize : ℕ+) (app : App) : ResponseStream where
  pageSize := pageSize
  buffer := []
  bounded := pageSize.pos
  bytesTransferred := 0
  chunkedEncoding := app.chunkedEncoding
  writingHeaders := true
  session := []

/-- `flush` of some bytes that have been put in the buffer. -/
def flushBuffer (stream : ResponseStream) (buffer : BString) : ResponseStream :=
  let chunks := stream.chunkedEncoding && !stream.writingHeaders
  { stream with
    buffer := []
    bounded := Nat.zero_lt_of_lt stream.bounded
    bytesTransferred := stream.bytesTransferred + buffer.length
    session := stream.session ++ (if chunks then hex buffer.length ++ crlf else []) ++ buffer ++
      if chunks then crlf else [] }

/-- `ResponseStream::flush` -/
def flush (stream : ResponseStream) : ResponseStream := stream.flushBuffer stream.buffer

/-- `ResponseStream::put` -/
def put (stream : ResponseStream) (c : UInt8) : ResponseStream :=
  if h : stream.buffer.length + 1 = stream.pageSize then stream.flushBuffer (stream.buffer ++ [c])
  else
    { stream with
      buffer := stream.buffer ++ [c]
      bounded := by
        have := stream.bounded
        rw [List.length_append, List.length_singleton]
        omega }

/-- `ostream::write` and `operator <<` of a string; `overflow` puts each
character. -/
def write (stream : ResponseStream) (s : BString) : ResponseStream := s.foldl put stream

/-- `ResponseStream::writeHeaders` -/
def writeHeaders (stream : ResponseStream) (app : App) : ResponseStream :=
  { ({ stream with writingHeaders := true }.write app.headers).flush with writingHeaders := false }

/-- The loop over the strings of a content. -/
def writeStrings (stream : ResponseStream) (sextets : List ℕ) (isData : Bool) : ℕ → List BString →
    Option ResponseStream
  | _, [] => some stream
  | index, data :: strings =>
    let starts := index == 0 && data.isData
    let data := if starts then (data.dropWhile (· ≠ 44)).drop 1 else data
    if isData || starts then do
      let (out, sextets) ← Base64DecodeStream.decode sextets data
      writeStrings (stream.write out) sextets true (index + 1) strings
    else writeStrings (stream.write data) sextets false (index + 1) strings

/-- The loop over the pages of a length, with how to read the page after some
bytes. -/
def writePages (read : ℕ → ℕ → BString) (contentLength : ℕ) (stream : ResponseStream)
    (bytesTransferred : ℕ) : ResponseStream :=
  if _h : bytesTransferred < contentLength then
    let length := min stream.pageSize (contentLength - bytesTransferred)
    let buffer := read bytesTransferred length
    if _hlen : buffer.length = 0 then stream
    else writePages read contentLength (stream.write buffer) (bytesTransferred + buffer.length)
  else stream
termination_by contentLength - bytesTransferred
decreasing_by exact Nat.sub_lt_sub_left _h (Nat.lt_add_of_pos_right (Nat.pos_of_ne_zero _hlen))

/-- `ResponseStream::writeContent` -/
def writeContent (stream : ResponseStream) : Serve → Option ResponseStream
  | .json written => some (stream.write written).flush
  | .query written => some (stream.write written).flush
  | .http none => some stream
  | .http (some strings) => do
    let stream ← writeStrings stream [] false 0 strings
    return stream.flush
  | .data contentLength page =>
    some (writePages (fun bytesTransferred _ => page (bytesTransferred / stream.pageSize))
      contentLength stream 0).flush
  | .content content =>
    some (writePages (fun bytesTransferred length => (content.drop bytesTransferred).take length)
      content.length stream 0).flush
  | .file content =>
    some (writePages (fun bytesTransferred length => (content.drop bytesTransferred).take length)
      content.length stream 0).flush

end ResponseStream

/-- `Response::write`: what the session gets, unless the content throws. -/
def Response.write (pageSize : ℕ+) (app : App) : Option BString := do
  let stream := (ResponseStream.new pageSize app).writeHeaders app
  let stream ← stream.writeContent app.serve
  return stream.flush.session

/-! ### The content -/

section

variable (read : ℕ → ℕ → BString) (pageSize contentLength : ℕ)

/-- What the loop over the pages reads. -/
def readPages (bytesTransferred : ℕ) : BString :=
  if _h : bytesTransferred < contentLength then
    let buffer := read bytesTransferred (min pageSize (contentLength - bytesTransferred))
    if _hlen : buffer.length = 0 then [] else buffer ++ readPages (bytesTransferred + buffer.length)
  else []
termination_by contentLength - bytesTransferred
decreasing_by exact Nat.sub_lt_sub_left _h (Nat.lt_add_of_pos_right (Nat.pos_of_ne_zero _hlen))

end

/-- The content that is served; a data URL is served decoded. -/
def Serve.served (pageSize : ℕ) : Serve → Option BString
  | .json written => some written
  | .query written => some written
  | .http none => some []
  | .http (some strings) =>
    if strings.head?.any BString.isData then
      (Base64DecodeStream.decode [] ((strings.flatten.dropWhile (· ≠ 44)).drop 1)).map Prod.fst
    else some strings.flatten
  | .data contentLength page =>
    some (readPages (fun bytesTransferred _ => page (bytesTransferred / pageSize))
      pageSize contentLength 0)
  | .content bytes => some bytes
  | .file bytes => some bytes

namespace ResponseStream

variable {stream : ResponseStream}

theorem write_append (s t : BString) : (stream.write s).write t = stream.write (s ++ t) :=
  (List.foldl_append ..).symm

theorem pageSize_put (c : UInt8) : (stream.put c).pageSize = stream.pageSize := by
  unfold put
  split_ifs <;> rfl

theorem pageSize_write : ∀ {s : BString} {stream : ResponseStream},
    (stream.write s).pageSize = stream.pageSize
  | [], _ => rfl
  | c :: s, stream => by
    show ((stream.put c).write s).pageSize = _
    rw [pageSize_write, pageSize_put]

theorem writePages_eq (read : ℕ → ℕ → BString) (contentLength : ℕ) (stream : ResponseStream)
    (bytesTransferred : ℕ) :
    writePages read contentLength stream bytesTransferred =
      stream.write (readPages read stream.pageSize contentLength bytesTransferred) := by
  rw [writePages, readPages]
  by_cases h : bytesTransferred < contentLength
  · simp only [dif_pos h]
    by_cases hlen :
      (read bytesTransferred (min stream.pageSize (contentLength - bytesTransferred))).length = 0
    · rw [dif_pos hlen, dif_pos hlen]
      rfl
    · rw [dif_neg hlen, dif_neg hlen, writePages_eq, pageSize_write, write_append]
  · rw [dif_neg h, dif_neg h]
    rfl
termination_by contentLength - bytesTransferred
decreasing_by exact Nat.sub_lt_sub_left h (Nat.lt_add_of_pos_right (Nat.pos_of_ne_zero hlen))

/-- The pages of a content are the content. -/
theorem readPages_content {pageSize : ℕ} (hp : 0 < pageSize) (content : BString)
    (bytesTransferred : ℕ) :
    readPages (fun bytesTransferred length => (content.drop bytesTransferred).take length)
      pageSize content.length
      bytesTransferred = content.drop bytesTransferred := by
  rw [readPages]
  by_cases h : bytesTransferred < content.length
  · have hlen :
      ((content.drop bytesTransferred).take
      (min pageSize (content.length - bytesTransferred))).length =
        min pageSize (content.length - bytesTransferred) := by
      rw [List.length_take, List.length_drop]
      omega
    have hpos : min pageSize (content.length - bytesTransferred) ≠ 0 := by omega
    rw [dif_pos h]
    simp only
    rw [dif_neg (by rwa [hlen]), readPages_content hp, hlen, ← List.drop_drop,
      List.take_append_drop]
  · rw [dif_neg h, List.drop_eq_nil_iff.mpr (by omega)]
termination_by content.length - bytesTransferred
decreasing_by omega

theorem decode_append (t : BString) : ∀ (s : BString) (sextets : List ℕ),
    Base64DecodeStream.decode sextets (s ++ t) = do
    let (out, sextets) ← Base64DecodeStream.decode sextets s
    let (out', sextets) ← Base64DecodeStream.decode sextets t
    return (out ++ out', sextets)
  | [], sextets => by
    cases h : Base64DecodeStream.decode sextets t <;> simp [Base64DecodeStream.decode, h]
  | c :: s, sextets => by
    rw [List.cons_append, Base64DecodeStream.decode, Base64DecodeStream.decode]
    cases hval : Base64DecodeStream.decodeChar c with
    | none => rfl
    | some val =>
      simp only [Option.bind_eq_bind, Option.bind_some]
      split
      · rw [decode_append t s []]
        cases Base64DecodeStream.decode [] s with
        | none => rfl
        | some out =>
          cases h : Base64DecodeStream.decode out.2 t <;> simp [h]
      · exact decode_append t s _

theorem writeStrings_data :
    ∀ (strings : List BString) (sextets : List ℕ) (index : ℕ) (stream : ResponseStream),
    writeStrings stream sextets true (index + 1) strings =
      (Base64DecodeStream.decode sextets strings.flatten).map fun out => stream.write out.1
  | [], sextets, index, stream => rfl
  | data :: strings, sextets, index, stream => by
    rw [writeStrings, List.flatten_cons, decode_append]
    have hindex : (index + 1 == 0) = false := rfl
    simp only [hindex, Bool.false_and, Bool.true_or, if_true, if_false, Bool.false_eq_true]
    cases Base64DecodeStream.decode sextets data with
    | none => rfl
    | some out =>
      simp only [Option.bind_eq_bind, Option.bind_some]
      rw [writeStrings_data strings out.2 (index + 1)]
      cases Base64DecodeStream.decode out.2 strings.flatten with
      | none => rfl
      | some out' => simp [write_append]

theorem writeStrings_text :
    ∀ (strings : List BString) (sextets : List ℕ) (index : ℕ) (stream : ResponseStream),
    writeStrings stream sextets false (index + 1) strings = some (stream.write strings.flatten)
  | [], sextets, index, stream => rfl
  | data :: strings, sextets, index, stream => by
    rw [writeStrings]
    have hindex : (index + 1 == 0) = false := rfl
    simp only [hindex, Bool.false_and, Bool.or_self, if_false, Bool.false_eq_true]
    rw [writeStrings_text strings sextets (index + 1), write_append, List.flatten_cons]

/-- A data URL goes on after its first comma. -/
theorem dropWhile_data {data : BString} (h : data.isData = true) (rest : BString) :
    ((data ++ rest).dropWhile (· ≠ 44)).drop 1 = (data.dropWhile (· ≠ 44)).drop 1 ++ rest := by
  unfold BString.isData at h
  rw [Bool.and_eq_true] at h
  have hcomma : data.dropWhile (· ≠ 44) ≠ [] := by
    intro hnil
    rw [List.dropWhile_eq_nil_iff] at hnil
    simpa using hnil 44 (List.contains_iff_mem.mp h.2)
  obtain ⟨b, bs, hb⟩ := List.exists_cons_of_ne_nil hcomma
  rw [List.dropWhile_append, hb]
  rfl

theorem writeStrings_eq (strings : List BString) (stream : ResponseStream) :
    writeStrings stream [] false 0 strings =
      ((Serve.http (some strings)).served stream.pageSize).map stream.write := by
  cases strings with
  | nil => rfl
  | cons data strings =>
    have hserved :
        (Serve.http (some (data :: strings))).served stream.pageSize =
          if data.isData = true then
            (Base64DecodeStream.decode []
              (((data ++ strings.flatten).dropWhile (· ≠ 44)).drop 1)).map Prod.fst
          else some (data ++ strings.flatten) := rfl
    rw [hserved, writeStrings]
    simp only [beq_self_eq_true, Bool.true_and, Bool.false_or]
    by_cases hd : data.isData = true
    · rw [if_pos hd, if_pos hd, if_pos hd, dropWhile_data hd, decode_append]
      cases Base64DecodeStream.decode [] ((data.dropWhile (· ≠ 44)).drop 1) with
      | none => rfl
      | some out =>
        simp only [Option.bind_eq_bind, Option.bind_some]
        rw [writeStrings_data]
        cases Base64DecodeStream.decode out.2 strings.flatten with
        | none => rfl
        | some out' => simp [write_append]
    · rw [if_neg hd, if_neg hd, if_neg hd, writeStrings_text, write_append]
      rfl

/-- The content is written and flushed, if there is any. -/
theorem writeContent_eq (stream : ResponseStream) (serve : Serve) : stream.writeContent serve =
    (serve.served stream.pageSize).map fun bytes =>
      if serve matches .http none then stream else (stream.write bytes).flush := by
  have hpos : 0 < stream.pageSize := Nat.zero_lt_of_lt stream.bounded
  cases serve with
  | file content => rw [writeContent, writePages_eq, readPages_content hpos]; rfl
  | content content => rw [writeContent, writePages_eq, readPages_content hpos]; rfl
  | data contentLength page => rw [writeContent, writePages_eq]; rfl
  | json written => rfl
  | query written => rfl
  | http strings =>
    cases strings with
    | none => rfl
    | some strings =>
      rw [writeContent, writeStrings_eq]
      cases (Serve.http (some strings)).served stream.pageSize <;> rfl

/-! ### The chunks -/

/-- What a flush of some bytes writes. -/
def framed (stream : ResponseStream) (data : BString) : BString :=
  if stream.chunkedEncoding && !stream.writingHeaders then chunk data else data

theorem session_flushBuffer (data : BString) :
    (stream.flushBuffer data).session = stream.session ++ stream.framed data := by
  unfold flushBuffer framed chunk
  cases stream.chunkedEncoding && !stream.writingHeaders <;> simp

theorem session_flush : stream.flush.session = stream.session ++ stream.framed stream.buffer :=
  session_flushBuffer stream.buffer

/-- The bytes have been written: full pages to the session, the rest to the
buffer. -/
structure Wrote (stream : ResponseStream) (s : BString) (stream' : ResponseStream) : Prop where
  pageSize : stream'.pageSize = stream.pageSize
  chunkedEncoding : stream'.chunkedEncoding = stream.chunkedEncoding
  writingHeaders : stream'.writingHeaders = stream.writingHeaders
  pages : ∃ pages : List BString, (∀ page ∈ pages, page.length = stream.pageSize) ∧
    pages.flatten ++ stream'.buffer = stream.buffer ++ s ∧
    stream'.session = stream.session ++ pages.flatMap stream.framed

theorem Wrote.framed {stream' : ResponseStream} {s : BString} (h : Wrote stream s stream') :
    stream'.framed = stream.framed := by
  funext data
  unfold ResponseStream.framed
  rw [h.chunkedEncoding, h.writingHeaders]

theorem put_wrote (c : UInt8) : Wrote stream [c] (stream.put c) := by
  unfold put
  split_ifs with h
  · refine ⟨rfl, rfl, rfl, [stream.buffer ++ [c]],
      ?_, by simp [flushBuffer], by rw [session_flushBuffer]; simp⟩
    intro page hp
    rw [List.mem_singleton.mp hp, List.length_append, ← h]
    rfl
  · exact ⟨rfl, rfl, rfl, [], nofun, rfl, by simp⟩

theorem write_wrote : ∀ (s : BString) (stream : ResponseStream), Wrote stream s (stream.write s)
  | [], stream => ⟨rfl, rfl, rfl, [], nofun, by simp [write], by simp [write]⟩
  | c :: s, stream => by
    have hput : Wrote stream [c] (stream.put c) := put_wrote c
    have hwrite := write_wrote s (stream.put c)
    obtain ⟨pages, hlen, hflat, hsession⟩ := hput.pages
    obtain ⟨pages', hlen', hflat', hsession'⟩ := hwrite.pages
    refine ⟨hwrite.pageSize.trans hput.pageSize, hwrite.chunkedEncoding.trans hput.chunkedEncoding,
      hwrite.writingHeaders.trans hput.writingHeaders, pages ++ pages', ?_, ?_, ?_⟩
    · intro page hp
      rcases List.mem_append.mp hp with hp | hp
      · exact hlen page hp
      · rw [hlen' page hp, hput.pageSize]
    · calc (pages ++ pages').flatten ++ ((stream.put c).write s).buffer
          = pages.flatten ++ (pages'.flatten ++ ((stream.put c).write s).buffer) := by simp
        _ = pages.flatten ++ (stream.put c).buffer ++ s := by rw [hflat', List.append_assoc]
        _ = stream.buffer ++ (c :: s) := by rw [hflat]; simp
    · calc ((stream.put c).write s).session
          = (stream.put c).session ++ pages'.flatMap (stream.put c).framed := hsession'
        _ = stream.session ++ (pages ++ pages').flatMap stream.framed := by
          rw [hsession, hput.framed]; simp

/-- The headers are written as they are. -/
theorem writeHeaders_eq (stream : ResponseStream) (app : App) (hbuffer : stream.buffer = [])
    (hsession : stream.session = []) :
    (stream.writeHeaders app).session = app.headers ∧
      (stream.writeHeaders app).pageSize = stream.pageSize ∧
      (stream.writeHeaders app).buffer = [] ∧
      (stream.writeHeaders app).framed = if stream.chunkedEncoding then chunk else id := by
  unfold writeHeaders
  generalize app.headers = headers
  have hwrote := write_wrote headers { stream with writingHeaders := true }
  obtain ⟨pages, -, hflat, hpages⟩ := hwrote.pages
  have hframed : ResponseStream.framed { stream with writingHeaders := true } = id := by
    funext data
    simp [ResponseStream.framed]
  refine ⟨?_, hwrote.pageSize, rfl, ?_⟩
  · show (flush _).session = _
    rw [session_flush, hwrote.framed, hframed, hpages, hframed]
    simpa [hbuffer, hsession] using hflat
  · funext data
    have hchunked := hwrote.chunkedEncoding
    unfold ResponseStream.framed
    show (if (ResponseStream.write _ headers).chunkedEncoding && !false then chunk data
      else data) = _
    rw [hchunked]
    cases stream.chunkedEncoding <;> rfl

end ResponseStream

theorem dvd_length_flatten {n : ℕ} : ∀ {pages : List BString}, (∀ page ∈ pages, page.length = n) →
    n ∣ pages.flatten.length
  | [], _ => Nat.dvd_zero n
  | page :: pages, h => by
    rw [List.flatten_cons, List.length_append, h page List.mem_cons_self]
    exact Nat.dvd_add (Nat.dvd_refl n) (dvd_length_flatten fun p hp =>
      h p (List.mem_cons_of_mem _ hp))

/-- The full pages of the content, the rest and the end; nothing but the end if
`writeContent` writes nothing. -/
theorem write_eq (pageSize : ℕ+) {app : App} (hchunked : app.chunkedEncoding = true)
    {content : BString}
    (hserved : app.serve.served pageSize = some content) : ∃ pages : List BString, ∃ rest : BString,
      (∀ page ∈ pages, page.length = (pageSize : ℕ)) ∧ rest.length < (pageSize : ℕ) ∧
        pages.flatten ++ rest = content ∧
      Response.write pageSize app = some (app.headers ++
        if app.serve matches .http none then chunk [] else pages.flatMap chunk ++ chunk rest ++
          chunk []) := by
  obtain ⟨hheaders, hsize, hbuffer, hframed⟩ :=
    (ResponseStream.new pageSize app).writeHeaders_eq app rfl rfl
  rw [show (ResponseStream.new pageSize app).chunkedEncoding = true from hchunked,
    if_pos rfl] at hframed
  have hsize : ((ResponseStream.new pageSize app).writeHeaders app).pageSize = (pageSize : ℕ) :=
    hsize
  unfold Response.write
  simp only [ResponseStream.writeContent_eq]
  generalize (ResponseStream.new pageSize app).writeHeaders app = stream at *
  rw [hsize, hserved]
  have hwrote := stream.write_wrote content
  obtain ⟨pages, hlen, hflat, hsession⟩ := hwrote.pages
  rw [hbuffer, List.nil_append] at hflat
  rw [hsize] at hlen
  have hbounded : (stream.write content).buffer.length < (pageSize : ℕ) := by
    rw [← hsize, ← hwrote.pageSize]
    exact (stream.write content).bounded
  refine ⟨pages, _, hlen, hbounded, hflat, ?_⟩
  by_cases hnone : (app.serve matches .http none) = true
  · simp [hnone, ResponseStream.session_flush, hheaders, hframed, hbuffer]
  · have hwrite : (stream.write content).flush.flush.session =
        app.headers ++ (pages.flatMap chunk ++ chunk (stream.write content).buffer ++
          chunk []) := by
      rw [ResponseStream.session_flush, ResponseStream.session_flush]
      show (stream.write content).session ++ (stream.write content).framed _ ++
        (stream.write content).framed [] = _
      rw [hsession, hwrote.framed, hheaders, hframed]
      simp
    simp [hnone, hwrite]

/-- **The body of a response.** What follows the headers is a chunked body of
the content exactly when the content does not end with a page, or has not been
flushed by `writeContent`. -/
theorem write_isBody (pageSize : ℕ+) (app : App) (hchunked : app.chunkedEncoding = true)
    {content : BString}
    (hserved : app.serve.served pageSize = some content) : ∃ body,
      Response.write pageSize app = some (app.headers ++ body) ∧
      (IsBody content body ↔ (app.serve matches .http none) = true ∨
        ¬ (pageSize : ℕ) ∣ content.length) := by
  obtain ⟨pages, rest, hlen, hrest, rfl, hwrite⟩ := write_eq pageSize hchunked hserved
  refine ⟨_, hwrite, ?_⟩
  by_cases hnone : (app.serve matches .http none) = true
  · have hserve : app.serve = .http none := by
      split at hnone
      · assumption
      · exact absurd hnone (by simp)
    have hnil : [] = pages.flatten ++ rest :=
      Option.some.inj ((congrArg (Serve.served pageSize) hserve).symm.trans hserved)
    rw [if_pos hnone, ← hnil]
    exact iff_of_true ⟨[], nofun, rfl, rfl⟩ (Or.inl hnone)
  · have hpages : ∀ page ∈ pages, page ≠ [] :=
      fun page hp h0 => pageSize.pos.ne (by rw [← hlen page hp, h0]; rfl)
    rw [if_neg hnone, or_iff_right hnone, isBody_iff hpages, List.length_append,
      Nat.dvd_add_right (dvd_length_flatten hlen), ne_eq, ← List.length_eq_zero_iff]
    exact not_congr ⟨fun h => h ▸ Nat.dvd_zero _, fun h => Nat.eq_zero_of_dvd_of_lt h hrest⟩

/-- A response with chunks. -/
def chunkedApp (serve : Serve) : App where
  status := 200
  statusText := text "ok"
  responseHeaders := [(text "transfer-encoding", text "chunked")]
  serve := serve

theorem write_isBody_ok : ∃ body, Response.write 4096 (chunkedApp (.json [110])) =
    some ((chunkedApp (.json [110])).headers ++ body) ∧ IsBody [110] body := by
  obtain ⟨body, hwrite, hbody⟩ := write_isBody 4096 (chunkedApp (.json [110])) (by decide) rfl
  exact ⟨body, hwrite, hbody.mpr (Or.inr (by decide))⟩

/-- No content ends with two empty chunks. -/
theorem write_empty : ¬ ∀ (pageSize : ℕ+) (app : App), app.chunkedEncoding = true →
    ∀ content : BString,
    app.serve.served pageSize = some content → ∃ body, Response.write pageSize app =
      some (app.headers ++ body) ∧ IsBody content body := by
  intro h
  have hchunked : (chunkedApp (.json [])).chunkedEncoding = true := by decide
  obtain ⟨body, hbody, hcontent⟩ := h 4096 (chunkedApp (.json [])) hchunked [] rfl
  obtain ⟨pages, rest, hlen, -, hflat, hwrite⟩ := write_eq 4096 hchunked rfl
  obtain ⟨hpages, rfl⟩ := List.append_eq_nil_iff.mp hflat
  rw [hbody, Option.some.injEq, List.append_cancel_left_eq] at hwrite
  have hpages' : ∀ page ∈ pages, page ≠ [] := fun page hp h0 => by
    have := hlen page hp
    rw [h0] at this
    exact absurd this (by decide)
  rw [hwrite] at hcontent
  refine (isBody_iff hpages').mp ?_ rfl
  rw [hflat]
  exact hcontent

end BeeFish
