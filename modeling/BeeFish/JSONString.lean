/-
# JSON strings

`BString::unescape` (b-string/b-string-base.h) undoes `escape`, and the matcher
`String` (json/string.h) reads what stands between two quotes. The parts that
`onpartstring` is called with always make up the text, but `_value` is what has
come since the last full page but one, which is the text exactly when it is not
longer than a page (`unescape_read`).

Key definitions: `unescape`, `StringFields.Holds`, `JSONString.Accepts`.
-/
import BeeFish.Combinators
import BeeFish.JSONGrammar

namespace BeeFish

open Utf8

namespace BString

/-! ### The other way round -/

/-- `BString::unescape` of a character after a backslash. -/
def unescapeChar (c : UInt8) : UInt8 :=
  if c = 48 then 0
  else if c = 34 then 34
  else if c = 92 then 92
  else if c = 98 then 8
  else if c = 102 then 12
  else if c = 114 then 13
  else if c = 110 then 10
  else if c = 116 then 9
  else if c = 118 then 11
  else c

/-- `BString::unescape` -/
def unescape : BString → Except Fault BString
  | [] => .ok []
  | [c] => .ok [c]
  | c :: c2 :: s =>
    if c = 92 then
      if c2 = 117 then do
        let count := zeros s
        let str := (s.drop count).take (4 - count)
        let part ← fromHex str
        let rest ← unescape ((s.drop count).drop (4 - count))
        return part ++ rest
      else do
        let rest ← unescape s
        return unescapeChar c2 :: rest
    else do
      let rest ← unescape (c2 :: s)
      return c :: rest
termination_by s => s.length
decreasing_by all_goals simp only [List.length_cons, List.length_drop]; omega

end BString

open BString

namespace JSONString

open JSONGrammar

/-- The matcher accepts the whole text, and its value is `s`. -/
def Accepts (pageSize : ℕ+) (t s : BString) : Prop :=
  ∃ n, ∀ fuel, n ≤ fuel → Parser.readText (program pageSize) fuel string t = .ok ([], some true) ∧
    ∃ p, (Parser.read (program pageSize) fuel (.ofMatch string) t >>= Parser.eof (program pageSize)
      fuel) = .ok p ∧ itemValue p.match_ = s

end JSONString

/-! ### Characters and their escapes -/

namespace BString

open JSONGrammar

variable {b c c2 : UInt8} {s t : BString}

theorem escapeChar_ascii (h : b < 0x80) : (escapeChar [b] = [b] ∧ [b] ∉ plainExceptions) ∨
    ∃ letter, escapeChar [b] = [92, letter] ∧ captures.lookup letter = some b ∧ letter ≠ 117 ∧
      letter < 0x80 ∧ unescapeChar letter = b := by
  have hall : ∀ n : Fin 128,
    (decide (escapeChar [UInt8.ofNat n] = [UInt8.ofNat n] ∧ [UInt8.ofNat n] ∉ plainExceptions) ||
      captures.any fun capture => decide (escapeChar [UInt8.ofNat n] = [92, capture.1] ∧
        capture.2 = UInt8.ofNat n ∧
        captures.lookup capture.1 = some capture.2 ∧ capture.1 ≠ 117 ∧ capture.1 < 0x80 ∧
          unescapeChar capture.1 = capture.2)) = true := by
    decide +kernel
  have hb := hall ⟨b.toNat, h⟩
  simp only [UInt8.ofNat_toNat, Bool.or_eq_true, decide_eq_true_iff, List.any_eq_true] at hb
  rcases hb with hplain | ⟨⟨letter, output⟩, -, hescape, rfl, hcapture⟩
  · exact Or.inl hplain
  · exact Or.inr ⟨letter, hescape, hcapture⟩

theorem unescape_cons (h : c ≠ 92) (hs : unescape s = .ok t) :
    unescape (c :: s) = .ok (c :: t) := by
  cases s with
  | nil =>
    rw [unescape] at hs
    obtain rfl := Except.ok.inj hs
    rw [unescape]
  | cons c2 s =>
    rw [unescape, if_neg h, hs]
    rfl

theorem unescape_escaped (h : c2 ≠ 117) (hs : unescape s = .ok t) :
    unescape (92 :: c2 :: s) = .ok (unescapeChar c2 :: t) := by
  rw [unescape, if_pos rfl, if_neg h, hs]
  rfl

theorem unescape_append : ∀ {c : BString}, (∀ b ∈ c, b ≠ 92) → unescape s = .ok t →
    unescape (c ++ s) = .ok (c ++ t)
  | [], _, hs => hs
  | _ :: _, h, hs =>
    unescape_cons (h _ List.mem_cons_self)
      (unescape_append (fun b hb => h b (List.mem_cons_of_mem _ hb)) hs)

theorem unescape_char {c : BString} (hc : IsChar c) (hs : unescape s = .ok t) :
    unescape (escapeChar c ++ s) = .ok (c ++ t) := by
  rcases hc.ascii_or with ⟨b, hb, rfl⟩ | ⟨hlong, hbytes⟩
  · rcases escapeChar_ascii hb with ⟨hescape, hplain⟩ | ⟨letter, hescape, -, hu, -, rfl⟩
    · rw [hescape]
      refine unescape_cons (fun heq => hplain ?_) hs
      rw [heq]
      exact List.mem_cons_self
    · rw [hescape]
      exact unescape_escaped hu hs
  · rw [escapeChar_long hlong]
    refine unescape_append (fun b hb heq => ?_) hs
    have := hbytes b hb
    rw [heq] at this
    exact absurd this (by decide)

/-- **Escaping and back.** -/
theorem unescape_escape {cs : List BString} (h : IsText cs) :
    unescape (escape cs.flatten) = .ok cs.flatten := by
  rw [escape_text h]
  induction cs with
  | nil => rw [List.flatMap_nil, unescape, List.flatten_nil]
  | cons c cs ih =>
    exact unescape_char (h c List.mem_cons_self) (ih fun d hd => h d (List.mem_cons_of_mem c hd))

end BString

/-! ### Parts and pages -/

namespace StringFields

/-- The fields after the characters of `s`, of which `ahead` is still to be
written: the parts and the buffer make up the rest, and `value` and
`characters` are what has come since the last time but one. -/
structure Holds (pageSize : ℕ+) (s ahead : BString) (fields : StringFields) : Prop where
  bytes : fields.parts.flatten ++ fields.bytes ++ ahead = s
  room : fields.bytes.length < pageSize
  full : ∀ part ∈ fields.parts, part.length = pageSize
  since : ∃ before, before ++ fields.value ++ fields.characters = s ∧
    (before = [] ↔ fields.parts.length ≤ 1) ∧
    (before ++ fields.value = [] ↔ fields.parts = [])
  behind : fields.characters.length ≤ fields.bytes.length + ahead.length

variable {pageSize : ℕ+} {s ahead : BString} {fields : StringFields} {c : UInt8}

theorem holds_empty : Holds pageSize [] [] ⟨[], [], [], []⟩ where
  bytes := rfl
  room := pageSize.pos
  full := List.forall_mem_nil _
  since := ⟨[], rfl, by simp, by simp⟩
  behind := le_rfl

/-- What `onBuffer` does with what has come since the last time. -/
theorem Holds.onBuffer_since (h : Holds pageSize s ahead fields) (hs : s ≠ []) (bytes : BString) :
    ∃ before, before ++ (onBuffer { fields with bytes := bytes }).value ++
      (onBuffer { fields with bytes := bytes }).characters = s ∧
      (before = [] ↔ (onBuffer { fields with bytes := bytes }).parts.length ≤ 1) ∧
      (before ++ (onBuffer { fields with bytes := bytes }).value = [] ↔
        (onBuffer { fields with bytes := bytes }).parts = []) := by
  obtain ⟨before, hsince, -, hnil⟩ := h.since
  refine ⟨before ++ fields.value, by simpa [onBuffer] using hsince, ?_, ?_⟩
  · rw [hnil]
    simp [onBuffer]
  · rw [show (onBuffer { fields with bytes := bytes }).value = fields.characters from rfl, hsince]
    simp [onBuffer, hs]

theorem Holds.push_back (h : Holds pageSize s (c :: ahead) fields) :
    Holds pageSize s ahead (push_back pageSize fields c) := by
  have hbytes : fields.parts.flatten ++ (fields.bytes ++ [c]) ++ ahead = s := by
    have := h.bytes
    simpa using this
  have hroom := h.room
  have hbehind := h.behind
  rw [List.length_cons] at hbehind
  unfold StringFields.push_back
  simp only [List.length_append, List.length_singleton]
  by_cases hpage : (pageSize : ℕ) ≤ fields.bytes.length + 1
  · rw [if_pos hpage]
    have hs : s ≠ [] := by
      rw [← hbytes]
      simp
    refine ⟨by simpa [onBuffer] using hbytes, pageSize.pos, ?_, h.onBuffer_since hs _,
      Nat.zero_le _⟩
    intro part hpart
    rcases List.mem_append.mp hpart with hpart | hpart
    · exact h.full part hpart
    · rw [List.mem_singleton.mp hpart, List.length_append, List.length_singleton]
      omega
  · rw [if_neg hpage]
    refine ⟨hbytes, ?_, h.full, h.since, ?_⟩
    · simp only [List.length_append, List.length_singleton]
      omega
    · simp only [List.length_append, List.length_singleton]
      omega

theorem Holds.write : ∀ {data : BString} {fields : StringFields}, Holds pageSize s (data ++ ahead)
    fields → Holds pageSize s ahead (write pageSize fields data)
  | [], _, h => h
  | c :: data, fields, h =>
    have hnext : Holds pageSize s (data ++ ahead) (StringFields.push_back pageSize fields c) :=
      Holds.push_back h
    hnext.write

theorem Holds.matchedItem (h : Holds pageSize s [] fields) (character : BString) :
    Holds pageSize (s ++ character) [] (matchedItem pageSize fields character) := by
  obtain ⟨before, hsince, hone, hnil⟩ := h.since
  refine Holds.write ⟨?_, h.room, h.full, ⟨before, ?_, hone, hnil⟩, ?_⟩
  · rw [← h.bytes]
    simp
  · rw [← hsince]
    simp
  · have := h.behind
    simp only [List.length_append, List.length_nil] at this ⊢
    omega

theorem holds_characters : ∀ {cs : List BString} {s : BString} {fields : StringFields},
    Holds pageSize s [] fields →
    Holds pageSize (s ++ cs.flatten) [] (cs.foldl (StringFields.matchedItem pageSize) fields)
  | [], s, _, h => by rwa [List.flatten_nil, List.append_nil]
  | c :: cs, s, _, h => by
    rw [List.flatten_cons, ← List.append_assoc]
    exact holds_characters (h.matchedItem c)

theorem Holds.length (h : Holds pageSize s [] fields) :
    s.length = fields.parts.length * pageSize + fields.bytes.length := by
  rw [← h.bytes, List.append_nil, List.length_append, List.length_flatten,
    List.map_congr_left h.full, List.map_const',
    List.sum_replicate_nat]

/-- The value of a whole text is the text where it is not longer than a page. -/
theorem Holds.flush_value (h : Holds pageSize s [] fields) : fields.flush.value = s ↔
    s.length ≤ pageSize := by
  have hlength := h.length
  have hroom := h.room
  have hbehind := h.behind
  rw [List.length_nil, Nat.add_zero] at hbehind
  obtain ⟨before, hsince, hone, hnil⟩ := h.since
  unfold flush
  split_ifs with hlen
  · have hvalue : fields.onBuffer.value = s ↔ fields.parts = [] := by
      rw [← hnil, ← hsince]
      exact List.self_eq_append_left
    rw [hvalue, ← List.length_eq_zero_iff]
    constructor
    · intro h0
      rw [hlength, h0]
      omega
    · intro hle
      by_contra hne
      have := Nat.le_mul_of_pos_left (pageSize : ℕ) (Nat.pos_of_ne_zero hne)
      omega
  · have h0 : fields.bytes.length = 0 := Nat.eq_zero_of_not_pos hlen
    have hcharacters : fields.characters = [] := List.length_eq_zero_iff.mp (by omega)
    rw [hcharacters, List.append_nil] at hsince
    have hvalue : fields.value = s ↔ fields.parts.length ≤ 1 := by
      rw [← hone, ← hsince]
      exact List.self_eq_append_left
    rw [hvalue, hlength, h0, Nat.add_zero]
    constructor
    · intro hle
      calc fields.parts.length * (pageSize : ℕ) ≤ 1 * pageSize := Nat.mul_le_mul_right _ hle
        _ = pageSize := Nat.one_mul _
    · intro hle
      exact Nat.le_of_mul_le_mul_right (by rwa [Nat.one_mul]) pageSize.pos

end StringFields

/-! ### What is left -/

namespace Parser

open Match (Reads Comes Outcome)

variable {κ σ τ φ : Type} {P : Program κ σ τ φ} {m m' : Match κ σ τ} {w rest : List BString}
    {r : Bool} {calls : List (τ × Match κ σ τ)}

theorem left_of_reads {out : Outcome κ σ τ} (h : Reads P m w false out calls) : ∃ n, ∀ fuel,
    n ≤ fuel → left P fuel m w = .ok out.rest := by
  generalize hs : false = s at h
  induction h with
  | ended _ => exact ⟨0, fun _ _ => rfl⟩
  | taken h hr _ ih =>
    obtain ⟨n, hn⟩ := h
    obtain ⟨n', hn'⟩ := ih hs
    refine ⟨max n n', fun fuel hf => ?_⟩
    rw [left_taken (hn fuel (Nat.max_le.mp hf).1) hr, hn' fuel (Nat.max_le.mp hf).2]
  | done h hr =>
    obtain ⟨n, hn⟩ := h
    exact ⟨n, fun fuel hf => left_result (hn fuel hf) (by simp [hr]) _⟩
  | late h hr =>
    obtain ⟨n, hn⟩ := h
    exact ⟨n, fun fuel hf => left_result (hn fuel hf) (by simp [hr]) _⟩
  | failed h hr =>
    obtain ⟨n, hn⟩ := h
    exact ⟨n, fun fuel hf => left_result (hn fuel hf) (by simp [hr]) _⟩
  | stalled _ _ _ _ => exact nomatch hs

/-- What the matcher comes to with the text is the result, and what it leaves
is left. -/
theorem readText_of_comes {t : BString} (h : Comes P m (characters t) false r m' rest calls) :
    ∃ n, ∀ fuel, n ≤ fuel →
    readText P fuel m t = .ok (rest, some r) ∧
      (read P fuel (.ofMatch m) t >>= eof P fuel) = .ok ⟨m', some r⟩ := by
  have hleft : ∃ n, ∀ fuel, n ≤ fuel → left P fuel m (characters t) = .ok rest := by
    cases h with
    | done h => exact left_of_reads h
    | failed h => exact left_of_reads h
    | ended h _ _ => exact left_of_reads h
  obtain ⟨n, hn⟩ := hleft
  obtain ⟨n', hn'⟩ := eof_of_comes h
  refine ⟨max n n', fun fuel hf => ⟨?_, hn' fuel (Nat.max_le.mp hf).2⟩⟩
  obtain ⟨p, hread, heof⟩ := Run.bind_eq_ok.mp (hn' fuel (Nat.max_le.mp hf).2)
  rw [readText, hn fuel (Nat.max_le.mp hf).1, Run.ok_bind, ofMatch, hread, Run.ok_bind, heof]
  rfl

end Parser

/-! ### What the matcher reads -/

namespace JSONGrammar

open Match (Tries Reads Comes Sequence)

variable (pageSize : ℕ+) {c : BString} {letter output : UInt8} {w : List BString}

theorem plainCharacter_takes (h : c ∉ plainExceptions) :
    ∃ m, Match.Turn (program pageSize) plainCharacter c m true [] ∧ m.result = some true ∧
      character m = c := by
  obtain ⟨m, hturn, hr⟩ := (Match.class_not (P := program pageSize) plainExceptions).takes c
    (by simpa using h)
  have hcapture := hturn.capture rfl (v := [])
  rw [if_pos rfl, hr] at hcapture
  exact ⟨_, hcapture, rfl, rfl⟩

theorem plainCharacter_refuses (h : c ∈ plainExceptions) :
    ∃ m, Match.Turn (program pageSize) plainCharacter c m false [] ∧ m.result = some false := by
  obtain ⟨m, hturn, hr⟩ := (Match.class_not (P := program pageSize) plainExceptions).refuses c
    (by simpa using h)
  have hcapture := hturn.capture rfl (v := [])
  rw [hr] at hcapture
  exact ⟨_, hcapture, rfl⟩

/-- The letter after a backslash. -/
theorem tries_captures (more : List JSONMatch) :
    ∀ {captures : List (UInt8 × UInt8)} (before : List JSONMatch),
    captures.lookup letter = some output → ∃ ms i m, Tries (program pageSize) [letter] before false
      ((captures.map fun capture => captureCharacter capture.1 capture.2) ++ more) ms true (some i)
      [(.capture [output], m)]
  | (input, output') :: captures, before, h => by
    have hturn := (Match.Turn.character (P := program pageSize) [input] [letter]).invoke
      (f := .capture [output']) rfl
    rw [List.map_cons, List.cons_append]
    by_cases hletter : letter = input
    · subst hletter
      rw [List.lookup_cons_self] at h
      obtain rfl := Option.some.inj h
      simp only [beq_self_eq_true, Match.result, if_true, List.nil_append] at hturn
      exact ⟨_, _, _, .found hturn rfl rfl⟩
    · have hne : ([input] == [letter]) = false := by simpa using Ne.symm hletter
      rw [List.lookup_cons, beq_false_of_ne hletter] at h
      simp only [hne, Match.result, Option.some.injEq, Bool.false_eq_true, if_false,
        List.append_nil] at hturn
      obtain ⟨ms, i, m, hnext⟩ := tries_captures more _ h
      exact ⟨ms, i, m, .more hturn rfl (by simp [Match.result]) hnext⟩

/-- A backslash and a letter. -/
theorem escapedCharacter_takes (h : captures.lookup letter = some output) :
    ∃ k m, Match.Turn (program pageSize) escapedCharacter [92] k true [] ∧
    k.result = none ∧ Match.Turn (program pageSize) k [letter] m true [] ∧ m.result = some true ∧
      character m = [output] := by
  obtain ⟨ms, i, m, htries⟩ := tries_captures pageSize
    [.and [plainCharacter, .not hex none] 0 none,
      .and [.character (some [117]) none, .invoke .hex hex none] 0 none] [] h
  have hletter : Match.Turn (program pageSize) escapes [letter] (.or ms (some i) (some true))
    true [(.capture [output], m)] := .or_found htries
  have hbackslash := Match.Turn.character (P := program pageSize) [92] [92]
  rw [beq_self_eq_true] at hbackslash
  have hfirst : Match.Turn (program pageSize) (.and ([] ++ .character (some [92]) none :: [escapes])
    ([] : List JSONMatch).length none) [92]
      _ true [] := hbackslash.and_taken (List.cons_ne_nil _ _) rfl
  have hlast :
    Match.Turn (program pageSize) (.and ([.character (some [92]) (some true)] ++ [escapes])
    [Match.character (some [92]) (some true)].length none)
      [letter] _ true _ := hletter.and_last rfl
  exact ⟨_, _, hfirst.object rfl rfl rfl, rfl, hlast.object rfl rfl rfl, rfl, rfl⟩

/-- A character as it has been escaped. -/
theorem stringCharacter_reads (hc : IsChar c) : ∃ ks, escapeChar c = ks.flatten ∧ IsText ks ∧
    ks ≠ [] ∧ ∀ w, ∃ m,
    Reads (program pageSize) stringCharacter (ks ++ w) false (.done m w) [] ∧ character m = c := by
  have hplain : c ∉ plainExceptions → ∀ w, ∃ m, Reads (program pageSize) stringCharacter ([c] ++ w)
    false (.done m w) [] ∧ character m = c := by
    intro h w
    obtain ⟨m, hturn, hr, hm⟩ := plainCharacter_takes pageSize h
    exact ⟨_, .done (Match.Turn.or_found (.found hturn rfl hr)) rfl, hm⟩
  have hself : IsText [c] := fun k hk => List.mem_singleton.mp hk ▸ hc
  rcases hc.ascii_or with ⟨b, hb, rfl⟩ | ⟨hlong, hbytes⟩
  · rcases escapeChar_ascii hb with ⟨hescape, hb'⟩ | ⟨letter, hescape, hlookup, -, hletter, -⟩
    · exact ⟨[[b]], by simpa using hescape, hself, List.cons_ne_nil _ _, hplain hb'⟩
    · refine ⟨[[92], [letter]], hescape, ?_, List.cons_ne_nil _ _, fun w => ?_⟩
      · intro k hk
        rcases List.mem_pair.mp hk with rfl | rfl
        · exact isChar_ascii (by decide)
        · exact isChar_ascii hletter
      · obtain ⟨p, hp, hpr⟩ :=
          plainCharacter_refuses pageSize (show [92] ∈ plainExceptions from List.mem_cons_self)
        obtain ⟨k, m, hk, hkr, hm, hmr, hcharacter⟩ := escapedCharacter_takes pageSize hlookup
        have hfirst :=
          Match.Turn.or_none (.more hp rfl (by simp [hpr]) (.more hk rfl (by simp [hkr]) .nil))
        have hlast : Match.Turn (program pageSize) (.or [p, k] none none) [letter] _ true [] :=
          .or_found (.failed hpr (.found hm hkr hmr))
        exact ⟨_, .taken hfirst rfl (.done hlast rfl), hcharacter⟩
  · have hmem : c ∉ plainExceptions := by
      intro hmem
      have hone : ∀ k ∈ plainExceptions, k.length = 1 := by simp [plainExceptions]
      have := hone c hmem
      omega
    exact ⟨[c], by rw [escapeChar_long hlong, List.flatten_singleton], hself, List.cons_ne_nil _ _,
      hplain hmem⟩

theorem stringCharacter_refuses :
    ∃ m, Match.Turn (program pageSize) stringCharacter [34] m false [] ∧ m.result = some false := by
  obtain ⟨p, hp, hpr⟩ := plainCharacter_refuses pageSize (show [34] ∈ plainExceptions by decide)
  have hbackslash := Match.Turn.character (P := program pageSize) [92] [34]
  rw [beq_false_of_ne (by decide)] at hbackslash
  have hand : Match.Turn (program pageSize) (.and ([] ++ .character (some [92]) none :: [escapes])
    ([] : List JSONMatch).length none) [34]
      _ false [] := hbackslash.and_failed rfl
  have hescaped : Match.Turn (program pageSize) escapedCharacter [34] _ false [] :=
    hand.object rfl rfl rfl
  exact ⟨_,
    .or_none (.more hp rfl (by simp [hpr]) (.more hescaped rfl (by simp [Match.result]) .nil)), rfl⟩

/-- The calls of `matchedItem`, one for each character. -/
inductive Calls : List (JSONCall × JSONMatch) → List BString → Prop
  | nil : Calls [] []
  | cons {m : JSONMatch} {calls : List (JSONCall × JSONMatch)} {cs : List BString}
      (h : Calls calls cs) :
      Calls ((.matchedItem, m) :: calls) (character m :: cs)

theorem Calls.fields {calls : List (JSONCall × JSONMatch)} {cs : List BString}
    (h : Calls calls cs) : ∀ fields : StringFields,
    calls.foldlM (fun self call => (program pageSize).onsuccess call.1 call.2 self)
      (.string fields) =
      .ok (.string (cs.foldl (StringFields.matchedItem pageSize) fields)) := by
  induction h with
  | nil => exact fun _ => rfl
  | cons _ ih => exact fun fields => ih _

/-- Some escaped characters and the quote after them. -/
theorem stringCharacters_comes (w : List BString) : ∀ {cs : List BString} (n : ℕ), IsText cs →
    ∃ ks calls, cs.flatMap escapeChar = ks.flatten ∧
    IsText ks ∧ Calls calls cs ∧ ∃ s m, Comes (program pageSize)
      (.repeated (.invoke .matchedItem stringCharacter none)
      (some (.invoke .matchedItem stringCharacter none)) 0 0 n none) (ks ++ [34] :: w) s true m
        ([34] :: w) calls
  | [], n, _ => by
    obtain ⟨m, hturn, hr⟩ := stringCharacter_refuses pageSize
    have hitem : Comes (program pageSize) stringCharacter ([34] :: w) false false m ([34] :: w)
      [] := .failed (.failed hturn hr)
    exact ⟨[], [], rfl, nofun, .nil, (hitem.invoke rfl).repeated_stop rfl⟩
  | c :: cs, n, ht => by
    obtain ⟨ks, hescape, hks, hne, hreads⟩ :=
      stringCharacter_reads pageSize (ht c List.mem_cons_self)
    obtain ⟨ks', calls, hescapes, hks', hcalls, hnext⟩ :=
      stringCharacters_comes w (n + 1) fun d hd => ht d (List.mem_cons_of_mem c hd)
    obtain ⟨m, hread, rfl⟩ := hreads (ks' ++ [34] :: w)
    have hitem : Comes (program pageSize) stringCharacter (ks ++ (ks' ++ [34] :: w)) false true m
      (ks' ++ [34] :: w) [] := .done hread
    refine ⟨ks ++ ks', (.matchedItem, m) :: calls, ?_, fun k hk => ?_, .cons hcalls, ?_⟩
    · rw [List.flatMap_cons, hescape, hescapes, List.flatten_append]
    · exact (List.mem_append.mp hk).elim (hks k) (hks' k)
    · rw [List.append_assoc]
      exact (hitem.invoke rfl).repeated_item rfl hnext (by simp) (Nat.zero_le _)

/-- The fields of a string that has been read. -/
def fieldsOf (cs : List BString) : StringFields :=
  (cs.foldl (StringFields.matchedItem pageSize) ⟨[], [], [], []⟩).flush

/-- The matcher reads an escaped text between two quotes. -/
theorem string_comes {cs : List BString} (h : IsText cs) (t : BString) :
    ∃ m, Comes (program pageSize) string
    (Parser.characters (34 :: (escape cs.flatten ++ 34 :: t))) false true
    (.object (.string (fieldsOf pageSize cs)) m (some true))
      (Parser.characters t) [] := by
  obtain ⟨ks, calls, hescape, hks, hcalls, s, k, hcomes⟩ :=
    stringCharacters_comes pageSize (Parser.characters t) 0 h
  have hquote : IsChar [34] := isChar_ascii (by decide)
  have hbytes :
      ∀ ks : List BString, IsText ks → Parser.characters (ks.flatten ++ 34 :: t) =
        ks ++ [34] :: Parser.characters t := by
    intro ks hks
    induction ks with
    | nil => exact Parser.characters_cons hquote
    | cons c ks ih =>
      rw [List.flatten_cons, List.append_assoc, Parser.characters_cons (hks c List.mem_cons_self),
        ih fun d hd => hks d (List.mem_cons_of_mem c hd)]
      rfl
  have htext :
      Parser.characters (34 :: (escape cs.flatten ++ 34 :: t)) =
        [34] :: (ks ++ [34] :: Parser.characters t) := by
    rw [escape_text h, hescape, ← hbytes ks hks]
    exact Parser.characters_cons hquote
  obtain ⟨c, w, hcons⟩ : ∃ c w, ks ++ [34] :: Parser.characters t = c :: w :=
    List.exists_cons_of_ne_nil (by simp)
  have hstart : Comes (program pageSize) stringCharacters (ks ++ [34] :: Parser.characters t)
    s true k ([34] :: Parser.characters t) calls := by
    rw [hcons] at hcomes ⊢
    exact hcomes.repeated_start
  have hbegin :=
    (Comes.character (P := program pageSize) [34] (ks ++ [34] :: Parser.characters t)).invoke
    (f := .beginString) rfl
  have hend := (Comes.character (P := program pageSize) [34] (Parser.characters t)).invoke
    (f := .endString) rfl
  obtain ⟨i, hseq⟩ :=
    (Sequence.cons (List.cons_ne_nil _ _) hbegin
    (.cons (List.cons_ne_nil _ _) hstart (.last hend))).comes
  rw [htext]
  refine ⟨_, hseq.object (fun _ => rfl) rfl ?_⟩
  have hfields := hcalls.fields pageSize ⟨[], [], [], []⟩
  simp only [if_true, List.nil_append, List.singleton_append, List.foldlM_cons]
  change List.foldlM _ (JSONObject.string ⟨[], [], [], []⟩) (calls ++ _) = _
  rw [List.foldlM_append, hfields]
  rfl

theorem fieldsOf_value (cs : List BString) : (fieldsOf pageSize cs).value = cs.flatten ↔
    cs.flatten.length ≤ pageSize := by
  have hholds : StringFields.Holds pageSize ([] ++ cs.flatten) [] _ :=
    StringFields.holds_characters StringFields.holds_empty
  rw [List.nil_append] at hholds
  exact hholds.flush_value

end JSONGrammar

namespace JSONString

open JSONGrammar

variable (pageSize : ℕ+)

/-- The matcher accepts an escaped text, and its value is the text where this
is not longer than a page. -/
theorem accepts_iff {cs : List BString} (h : IsText cs) :
    Accepts pageSize ([34] ++ escape cs.flatten ++ [34]) cs.flatten ↔
      cs.flatten.length ≤ pageSize := by
  obtain ⟨m, hcomes⟩ := string_comes pageSize h []
  rw [Parser.characters_nil] at hcomes
  obtain ⟨n, hn⟩ := Parser.readText_of_comes hcomes
  rw [← fieldsOf_value]
  constructor
  · rintro ⟨n', hn'⟩
    obtain ⟨-, p, hp, hvalue⟩ := hn' (max n n') (Nat.le_max_right _ _)
    have hrun := (hn (max n n') (Nat.le_max_left _ _)).2
    rw [show [34] ++ escape cs.flatten ++ [34] = 34 :: (escape cs.flatten ++ [34]) from rfl,
      hrun] at hp
    obtain rfl := Run.ok_inj.mp hp
    exact hvalue
  · intro hvalue
    exact ⟨n, fun fuel hf => ⟨(hn fuel hf).1, _, (hn fuel hf).2, hvalue⟩⟩

/-- **Strings.** What was escaped comes back, and the matcher accepts it with
the text as its value, exactly when the text is not longer than a page. -/
theorem unescape_read {cs : List BString} (h : IsText cs) :
    unescape (escape cs.flatten) = .ok cs.flatten ∧
      Accepts pageSize ([34] ++ escape cs.flatten ++ [34]) cs.flatten ↔
      cs.flatten.length ≤ pageSize := by
  rw [accepts_iff pageSize h]
  exact and_iff_right (unescape_escape h)

theorem unescape_read_quote : unescape (escape [34, 97]) = .ok [34, 97] ∧
    Accepts 4096 ([34] ++ escape [34, 97] ++ [34]) [34, 97] ↔
    [(34 : UInt8), 97].length ≤ (4096 : ℕ+) :=
  unescape_read 4096 (isText_ascii (show [[34], [97]].all _ = true by decide))

/-- One letter more than a page. -/
theorem unescape_long : ¬ ∀ (pageSize : ℕ+) (cs : List BString), IsText cs →
    unescape (escape cs.flatten) = .ok cs.flatten ∧
      Accepts pageSize ([34] ++ escape cs.flatten ++ [34]) cs.flatten := by
  intro h
  have ht : IsText (List.replicate 4097 [97]) := by
    intro c hc
    obtain rfl := List.eq_of_mem_replicate hc
    exact isChar_ascii (by decide)
  have hle := (accepts_iff 4096 ht).mp (h 4096 _ ht).2
  rw [List.length_flatten, List.map_replicate, List.sum_replicate_nat] at hle
  exact absurd hle (by decide)

end JSONString

end BeeFish
