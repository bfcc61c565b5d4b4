/-
# Tokens, character by character

What `tokenise` does to a text of whole characters, with perhaps a part of one
after them. `scan` goes through the characters with the word read so far: an
emoji is a token and ends a word, a blank or a punctuation mark that is no
separator ends a word, anything else goes on with it. If a part of a character
comes directly after an unfinished word, the word is lost. The iterator gives
the tokens of `scan` (`tokens_spec`).

Key definitions: `scan`, `Mode`, `nextToken`.
-/
import BeeFish.Tokenise

namespace BeeFish

open Utf8 BString

/-! ### Characters and words -/

section

variable (L : Locale)

/-- A word starts with the character. -/
def starts (c : BString) : Bool := !isSpace L c && !isPunctuation L c

/-- The character ends a word. -/
def ends (c : BString) : Bool := isSpace L c || (isPunctuation L c && !isSeperator c)

/-- The rest of a word, what comes after it, and whether the text ended with
it. -/
def wordRest (word : BString) : List BString → BString × List BString × Bool
  | [] => (word, [], true)
  | c :: cs =>
    if isEmoji c then (word, c :: cs, false)
    else if ends L c then (word, cs, false)
    else wordRest (word ++ c) cs

/-- The first token, what comes after it, and whether the text ended with it as
an unfinished word. -/
def nextToken : List BString → Option (BString × List BString × Bool)
  | [] => none
  | c :: cs =>
    if isEmoji c then some (c, cs, false)
    else if starts L c then some (wordRest L c cs)
    else nextToken cs

/-- The tokens of the characters after a word read so far, which is lost if
`lost` and the text ends with it. -/
def scan (lost : Bool) : Option BString → List BString → List BString
  | none, [] => []
  | some word, [] => if lost then [] else [word]
  | none, c :: cs =>
    if isEmoji c then c :: scan lost none cs
    else scan lost (if starts L c then some c else none) cs
  | some word, c :: cs =>
    if isEmoji c then word :: c :: scan lost none cs
    else if ends L c then word :: scan lost none cs
    else scan lost (some (word ++ c)) cs

end

variable {L : Locale} {lost : Bool}

theorem scan_word : ∀ (cs : List BString) (word : BString), scan L lost (some word) cs =
    if (wordRest L word cs).2.2 && lost then []
    else (wordRest L word cs).1 :: scan L lost none (wordRest L word cs).2.1
  | [], word => by cases lost <;> rfl
  | c :: cs, word => by
    by_cases he : isEmoji c
    · simp [scan, wordRest, he]
    · by_cases hends : ends L c
      · simp [scan, wordRest, he, hends]
      · have h := scan_word cs (word ++ c)
        simpa [scan, wordRest, he, hends] using h

theorem scan_none : ∀ cs : List BString,
    scan L lost none cs = match nextToken L cs with
    | none => []
    | some (word, rest, unfinished) =>
      if unfinished && lost then [] else word :: scan L lost none rest
  | [] => rfl
  | c :: cs => by
    rw [scan, nextToken]
    split_ifs with he hs
    · rfl
    · exact scan_word cs c
    · exact scan_none cs

theorem wordRest_length :
    ∀ (cs : List BString) (word : BString), (wordRest L word cs).2.1.length ≤ cs.length
  | [], _ => Nat.le_refl _
  | c :: cs, word => by
    rw [wordRest]
    split_ifs
    · exact Nat.le_refl _
    · exact Nat.le_succ _
    · exact Nat.le_succ_of_le (wordRest_length cs _)

theorem nextToken_length : ∀ {cs : List BString} {t : BString × List BString × Bool},
    nextToken L cs = some t →
    t.2.1.length < cs.length
  | c :: cs, t, h => by
    rw [nextToken] at h
    split_ifs at h
    · obtain rfl := Option.some.inj h
      exact Nat.lt_succ_self _
    · obtain rfl := Option.some.inj h
      exact Nat.lt_succ_of_le (wordRest_length cs c)
    · exact Nat.lt_succ_of_lt (nextToken_length h)

/-! ### Reading a character -/

theorem expectedBytes_eq (b : UInt8) (h : width b ≠ 0) :
    expectedBytes b = if width b = 1 then 0 else width b := by
  have hall : ∀ n : Fin 256, width (UInt8.ofNat n) ≠ 0 →
      expectedBytes (UInt8.ofNat n) =
        if width (UInt8.ofNat n) = 1 then 0 else width (UInt8.ofNat n) := by
    decide +kernel
  have hb := hall ⟨b.toNat, b.toNat_lt⟩
  simp only [UInt8.ofNat_toNat] at hb
  exact hb h

theorem expectNextByte_tail {b : UInt8} (h : IsTail b) : expectNextByte b = false := by
  have hb : ¬ b < 0x80 := by
    intro hlt
    exact absurd h.1 (by rw [UInt8.not_le]; exact hlt)
  simp [expectNextByte, hb]

/-- The tail of a character is read to its end. -/
theorem readPart_tail : ∀ {tail : BString} {expected : ℕ} {part rest : BString},
    (∀ b ∈ tail, IsTail b) →
    expected - 1 = tail.length → readPart expected part (tail ++ rest) = (0, part ++ tail)
  | [], expected, part, [], _, he => by simpa [readPart] using he
  | [], expected, part, c :: rest, _, he => by
    have he : expected - 1 = 0 := he
    simp [readPart, he]
  | b :: tail, expected, part, rest, ht, he => by
    have he' : expected - 1 ≠ 0 := by simp [he]
    rw [List.cons_append, readPart]
    simp only [he', if_false, expectNextByte_tail (ht b List.mem_cons_self), Bool.false_eq_true]
    rw [readPart_tail (fun b hb => ht b (List.mem_cons_of_mem _ hb)) (by rw [he]; rfl)]
    simp

/-- Where the bytes end before the character does, more are expected. -/
theorem readPart_short : ∀ {tail : BString} (expected : ℕ) (part : BString),
    (∀ b ∈ tail, IsTail b) →
    tail.length < expected - 1 → (readPart expected part tail).1 ≠ 0 ∧
      (readPart expected part tail).2 = part ++ tail
  | [], expected, part, _, he => by
    have he : 0 < expected - 1 := he
    simp only [readPart, List.append_nil, and_true]
    omega
  | b :: tail, expected, part, ht, he => by
    simp only [List.length_cons] at he
    have he' : expected - 1 ≠ 0 := by omega
    rw [readPart]
    simp only [he', if_false, expectNextByte_tail (ht b List.mem_cons_self), Bool.false_eq_true]
    have h := readPart_short (expected - 1) (part ++ [b])
      (fun b hb => ht b (List.mem_cons_of_mem _ hb))
      (show tail.length < expected - 1 - 1 by omega)
    simpa using h

theorem nextUTF8_char {s rest c : BString} {position : ℕ} (hc : IsChar c)
    (hs : s.drop position = c ++ rest) :
    nextUTF8 s position [] = (c, position + c.length, []) := by
  obtain ⟨lead, tail, rfl⟩ := List.exists_cons_of_ne_nil hc.ne_nil
  have hw : tail.length + 1 = width lead := hc.width
  have hr : readPart (expectedBytes lead) [lead] (tail ++ rest) = (0, [lead] ++ tail) := by
    refine readPart_tail hc.tail ?_
    rw [expectedBytes_eq lead (by omega)]
    split_ifs <;> omega
  unfold nextUTF8
  rw [List.nil_append, hs, List.cons_append]
  simp [hr]

/-- No bytes, or some of the bytes of a character. -/
def IsPart (part : BString) : Prop := part = [] ∨ ∃ c, IsChar c ∧ part <+: c ∧ part ≠ c

theorem isPart_nil : IsPart [] := Or.inl rfl

theorem isPart_of_begins {cs : List BString} {part : BString} (ht : IsText cs)
    (h : Begins cs part) : IsPart part := by
  cases h with
  | nil => exact Or.inl rfl
  | part cs hp hne _ => exact Or.inr ⟨_, ht _ List.mem_cons_self, hp, hne⟩

theorem nextUTF8_part {s part : BString} {position : ℕ} (hp : IsPart part) (h0 : part ≠ [])
    (hs : s.drop position = part) :
    nextUTF8 s position [] = ([], position + part.length + part.length, part) := by
  obtain ⟨c, hc, hpc, hne⟩ := hp.resolve_left h0
  obtain ⟨lead, tail, rfl⟩ := List.exists_cons_of_ne_nil h0
  obtain ⟨rest, rfl⟩ := hpc
  have hw : tail.length + rest.length + 1 = width lead := by
    have := hc.width
    simpa using this
  have hrest : 0 < rest.length := List.length_pos_iff.mpr fun he => hne (by simp [he])
  have htail : ∀ b ∈ tail, IsTail b := fun b hb => hc.tail b (by simp [hb])
  obtain ⟨h1, h2⟩ := readPart_short (expectedBytes lead) [lead] htail (by
    rw [expectedBytes_eq lead (by omega)]
    split_ifs <;> omega)
  unfold nextUTF8
  rw [List.nil_append, hs]
  simp [h1, h2]

/-! ### The iterator -/

theorem lt_of_drop {s rest c : BString} {position : ℕ} (hc : c ≠ [])
    (hs : s.drop position = c ++ rest) :
    position < s.length ∧ s.drop (position + c.length) = rest := by
  constructor
  · have hpos : 0 < (s.drop position).length := by
      rw [hs, List.length_append]
      exact Nat.add_pos_left (List.length_pos_iff.mpr hc) _
    rw [List.length_drop] at hpos
    omega
  · rw [← List.drop_drop, hs, List.drop_left]

variable {s part : BString}

/-- The first token starts with a character, or there is none. -/
theorem skip_spec (hp : IsPart part) : ∀ {cs : List BString} {position : ℕ}, IsText cs →
    s.drop position = cs.flatten ++ part →
    (∃ position', skip L s position [] = (.nothing, position', part) ∧ ¬ position' < s.length ∧
      nextToken L cs = none) ∨
    ∃ c cs' position', IsChar c ∧ IsText cs' ∧ s.drop position' = cs'.flatten ++ part ∧
      ((skip L s position [] = (.emoji c, position', []) ∧ nextToken L cs = some (c, cs', false)) ∨
        (skip L s position [] = (.word c, position', []) ∧
          nextToken L cs = some (wordRest L c cs')))
  | [], position, _, hs => by
    refine Or.inl ?_
    have hs : s.drop position = part := hs
    by_cases h0 : part = []
    · have hend : ¬ position < s.length := by
        have := congrArg List.length hs
        simp only [List.length_drop, h0, List.length_nil] at this
        omega
      exact ⟨position, by rw [skip, dif_neg hend, h0], hend, rfl⟩
    · obtain ⟨hlt, hrest⟩ := lt_of_drop h0 (hs.trans (List.append_nil part).symm)
      have hend : ¬ position + part.length + part.length < s.length := by
        have := congrArg List.length hrest
        simp only [List.length_drop, List.length_nil] at this
        omega
      refine ⟨position + part.length + part.length, ?_, hend, rfl⟩
      rw [skip, dif_pos hlt]
      simp only [nextUTF8_part hp h0 hs, List.length_eq_zero_iff, h0, if_false]
      rw [skip, dif_neg hend]
  | c :: cs, position, ht, hs => by
    have hc := ht c List.mem_cons_self
    have ht' : IsText cs := fun k hk => ht k (List.mem_cons_of_mem _ hk)
    rw [List.flatten_cons, List.append_assoc] at hs
    obtain ⟨hlt, hrest⟩ := lt_of_drop hc.ne_nil hs
    have hskip : skip L s position [] = if isEmoji c then (.emoji c, position + c.length, [])
        else if !isSpace L c && !isPunctuation L c then (.word c, position + c.length, [])
        else skip L s (position + c.length) [] := by
      rw [skip, dif_pos hlt]
      simp only [nextUTF8_char hc hs, List.length_nil, if_true]
    rw [hskip, nextToken]
    by_cases he : isEmoji c
    · exact Or.inr ⟨c, cs, _, hc, ht', hrest, Or.inl ⟨by rw [if_pos he], by rw [if_pos he]⟩⟩
    · by_cases hst : starts L c
      · have hst' : (!isSpace L c && !isPunctuation L c) = true := hst
        exact Or.inr ⟨c, cs, _, hc, ht', hrest,
          Or.inr ⟨by rw [if_neg he, if_pos hst'], by rw [if_neg he, if_pos hst]⟩⟩
      · have hst' : ¬ (!isSpace L c && !isPunctuation L c) = true := hst
        rw [if_neg he, if_neg hst', if_neg he, if_neg hst]
        exact skip_spec hp ht' hrest

/-- The rest of a word is read, with the part of a character after it if the
text ends there. -/
theorem readWord_spec (hp : IsPart part) : ∀ {cs : List BString} {position : ℕ} {word : BString},
    IsText cs → word ≠ [] →
    s.drop position = cs.flatten ++ part →
    (wordRest L word cs).1 ≠ [] ∧ IsText (wordRest L word cs).2.1 ∧ ∃ position',
      readWord L s position [] word =
        ((wordRest L word cs).1, position', if (wordRest L word cs).2.2 then part else []) ∧
      ((wordRest L word cs).2.2 = false ∨ part = [] →
        s.drop position' = (wordRest L word cs).2.1.flatten ++ part)
  | [], position, word, _, hw, hs => by
    have hs : s.drop position = part := hs
    refine ⟨hw, nofun, ?_⟩
    by_cases h0 : part = []
    · have hend : ¬ position < s.length := by
        have := congrArg List.length hs
        simp only [List.length_drop, h0, List.length_nil] at this
        omega
      refine ⟨position, ?_, fun _ => hs⟩
      rw [readWord, dif_neg hend, h0]
      rfl
    · obtain ⟨hlt, hrest⟩ := lt_of_drop h0 (hs.trans (List.append_nil part).symm)
      have hend : ¬ position + part.length + part.length < s.length := by
        have := congrArg List.length hrest
        simp only [List.length_drop, List.length_nil] at this
        omega
      refine ⟨position + part.length + part.length, ?_, fun h => absurd h (by simp [wordRest, h0])⟩
      rw [readWord, dif_pos hlt]
      simp only [nextUTF8_part hp h0 hs, List.length_eq_zero_iff, h0, if_false]
      rw [readWord, dif_neg hend]
      rfl
  | c :: cs, position, word, ht, hw, hs => by
    have hc := ht c List.mem_cons_self
    have ht' : IsText cs := fun k hk => ht k (List.mem_cons_of_mem _ hk)
    have hs' : s.drop position = c ++ (cs.flatten ++ part) := by
      rw [hs, List.flatten_cons, List.append_assoc]
    obtain ⟨hlt, hrest⟩ := lt_of_drop hc.ne_nil hs'
    have hread : readWord L s position [] word = if isEmoji c then (word, position, [])
        else if ends L c then (word, position + c.length, [])
        else readWord L s (position + c.length) [] (word ++ c) := by
      rw [readWord, dif_pos hlt]
      simp only [nextUTF8_char hc hs', List.length_nil, if_true, List.length_eq_zero_iff.not, hw,
        not_false_eq_true]
      rfl
    rw [hread, wordRest]
    by_cases he : isEmoji c
    · simp only [he, if_true]
      exact ⟨hw, ht, position, rfl, fun _ => hs⟩
    · by_cases hends : ends L c
      · simp only [he, hends, if_true, if_false, Bool.false_eq_true]
        exact ⟨hw, ht', _, rfl, fun _ => hrest⟩
      · simp only [he, hends, if_false, Bool.false_eq_true]
        exact readWord_spec hp ht' (by simp [hw]) hrest

/-- `setValue` finds the first token, but a word that ends with a part of a
character is lost. -/
theorem setValue_spec (hp : IsPart part) {cs : List BString} {it : Iterator} (ht : IsText cs)
    (hs : s.drop it.position = cs.flatten ++ part) :
    match nextToken L cs with
    | none => ∃ position', it.setValue L s [] = (false, { it with position := position' }, part)
    | some (word, cs', unfinished) => IsText cs' ∧
        if unfinished && !part.isEmpty then ∃ position', it.setValue L s [] =
          (false, { it with position := position' }, part)
        else ∃ position', it.setValue L s [] =
          (true, { it with position := position', value := word }, []) ∧
          s.drop position' = cs'.flatten ++ part := by
  rcases skip_spec (L := L) hp ht hs with ⟨position', hskip, hend, hnone⟩ | ⟨c, cs', position', hc,
    ht', hs', h⟩
  · rw [hnone]
    refine ⟨position', ?_⟩
    unfold Iterator.setValue
    rw [hskip]
    simp only
    rw [readWord, dif_neg hend]
    simp [Iterator.setWord]
  · rcases h with ⟨hskip, htoken⟩ | ⟨hskip, htoken⟩
    · rw [htoken]
      refine ⟨ht', position', ?_, hs'⟩
      unfold Iterator.setValue
      rw [hskip]
    · rw [htoken]
      obtain ⟨hw, ht'', position'', hread, hdrop⟩ := readWord_spec (L := L) hp ht' hc.ne_nil hs'
      have hset : it.setValue L s [] = it.setWord ((wordRest L c cs').1, position'',
          if (wordRest L c cs').2.2 then part else []) := by
        unfold Iterator.setValue
        rw [hskip]
        exact congrArg it.setWord hread
      refine ⟨ht'', ?_⟩
      rw [hset]
      cases hu : (wordRest L c cs').2.2 with
      | false => exact ⟨position'', by simp [Iterator.setWord, hw], hdrop (Or.inl hu)⟩
      | true =>
        by_cases h0 : part = []
        · simp only [h0, List.isEmpty_nil, Bool.not_true, Bool.and_false, Bool.false_eq_true,
            if_false, if_true]
          exact ⟨position'', by simp [Iterator.setWord, hw], by rw [hdrop (Or.inr h0), h0]⟩
        · have hpart : (true && !part.isEmpty) = true := by simpa using h0
          rw [if_pos hpart, if_pos rfl]
          exact ⟨position'', by simp [Iterator.setWord, h0]⟩

/-! ### The tokens -/

/-- The tokens of a text with a part of a character after it. -/
def allTokens (L : Locale) (cs : List BString) (part : BString) : List BString :=
  scan L (!part.isEmpty) none cs

theorem next_spec (hp : IsPart part) {cs : List BString} (it : Iterator) (ht : IsText cs)
    (hit : it.isEnd = false)
    (hs : s.drop it.position = cs.flatten ++ part) :
    (allTokens L cs part = [] ∧ ∃ position', it.next L s [] = (⟨position', it.value, true⟩, part)) ∨
    ∃ word cs' position', allTokens L cs part = word :: allTokens L cs' part ∧ IsText cs' ∧
      cs'.length < cs.length ∧
      it.next L s [] = (⟨position', word, false⟩, []) ∧ s.drop position' = cs'.flatten ++ part := by
  have h := setValue_spec (L := L) hp ht hs
  unfold allTokens Iterator.next
  rw [if_neg (by simp [hit]), scan_none cs]
  cases htok : nextToken L cs with
  | none =>
    rw [htok] at h
    obtain ⟨position', hset⟩ := h
    exact Or.inl ⟨rfl, position', by rw [hset]; rfl⟩
  | some t =>
    have hlen := nextToken_length htok
    obtain ⟨word, cs', unfinished⟩ := t
    rw [htok] at h
    obtain ⟨ht', h⟩ := h
    simp only
    split_ifs at h ⊢ with hlost
    · obtain ⟨position', hset⟩ := h
      exact Or.inl ⟨rfl, position', by rw [hset]; rfl⟩
    · obtain ⟨position', hset, hs'⟩ := h
      exact Or.inr ⟨word, cs', position', rfl, ht', hlen, by rw [hset]; rfl, hs'⟩

/-- The last token is kept back if more is to come. -/
theorem tokens_spec (hp : IsPart part) (isFinalWord : Bool)
    (hfinal : isFinalWord = true → part = []) (n : ℕ) :
    ∀ {cs : List BString} (it : Iterator), cs.length ≤ n → IsText cs → it.isEnd = false →
      s.drop it.position = cs.flatten ++ part → tokens L s isFinalWord it [] =
        if isFinalWord then (it.value :: allTokens L cs part, [], [])
        else ((it.value :: allTokens L cs part).dropLast,
          (it.value :: allTokens L cs part).getLast?.getD [], part) := by
  induction n using Nat.strong_induction_on with
  | _ n ih =>
    intro cs it hn ht hit hs
    rw [tokens, dif_neg (by simp [hit])]
    rcases next_spec (L := L) hp it ht hit hs with ⟨hnone, position', hnext⟩ | ⟨word, cs',
      position', hcons, ht', hlt, hnext, hs'⟩
    · rw [hnext, hnone]
      cases isFinalWord with
      | false => rfl
      | true =>
        obtain rfl := hfinal rfl
        have hend : (it.next L s []).1.isEnd = true := by rw [hnext]
        simp only [Bool.not_true, Bool.false_and, Bool.false_eq_true, if_false, if_true]
        rw [hnext, tokens, dif_pos rfl]
    · have hrest := ih cs'.length (Nat.lt_of_lt_of_le hlt hn) ⟨position', word, false⟩
        (Nat.le_refl _) ht' rfl hs'
      rw [hnext]
      simp only [Bool.and_false, Bool.false_eq_true, if_false, hnext]
      rw [hrest, hcons]
      cases isFinalWord with
      | false => simp
      | true => simp

/-- The iterator is made as one that stood at the start is moved on: `setValue`
does not read `isEnd`. -/
theorem new_eq_next : Iterator.new L s [] = Iterator.next L s ⟨0, [], false⟩ [] := by
  have hword : ∀ r : BString × ℕ × BString,
      Iterator.setWord ⟨0, [], true⟩ r =
        ((Iterator.setWord ⟨0, [], false⟩ r).1,
          { (Iterator.setWord ⟨0, [], false⟩ r).2.1 with isEnd := true },
          (Iterator.setWord ⟨0, [], false⟩ r).2.2) := by
    rintro ⟨word, position, part⟩
    simp only [Iterator.setWord]
    split_ifs <;> rfl
  unfold Iterator.new Iterator.next Iterator.setValue
  simp only [Bool.false_eq_true, if_false]
  split <;> simp [hword]

/-- The tokens of a text from its start. -/
theorem tokens_new (hp : IsPart part) (isFinalWord : Bool) (hfinal : isFinalWord = true → part = [])
    {cs : List BString} (ht : IsText cs) (hs : s = cs.flatten ++ part) :
    tokens L s isFinalWord (Iterator.new L s []).1 (Iterator.new L s []).2 =
      if isFinalWord then (allTokens L cs part, [], [])
      else ((allTokens L cs part).dropLast, (allTokens L cs part).getLast?.getD [], part) := by
  rw [new_eq_next]
  rcases next_spec (L := L) hp ⟨0, [], false⟩ ht rfl hs with
    ⟨hnone, position', hnext⟩ | ⟨word, cs', position', hcons, ht', _, hnext, hs'⟩
  · rw [hnext, hnone, tokens, dif_pos rfl]
    cases isFinalWord with
    | false => rfl
    | true =>
      obtain rfl := hfinal rfl
      rfl
  · rw [hnext, hcons]
    exact tokens_spec hp isFinalWord hfinal cs'.length ⟨position', word, false⟩ (Nat.le_refl _)
      ht' rfl hs'

/-- The words of some tokens, as `tokenise` gives them. -/
def wordsOf (L : Locale) (tokens : List BString) : List BString :=
  unique ((tokens.flatMap (tokenWords L)).mergeSort fun a b => !decide (b < a))

theorem mem_wordsOf {w : BString} {tokens : List BString} :
    w ∈ wordsOf L tokens ↔ ∃ token ∈ tokens, w ∈ tokenWords L token := by
  unfold wordsOf
  rw [mem_unique, List.mem_mergeSort, List.mem_flatMap]

/-- `tokenise` gives the words of the tokens; without `isFinalWord` the last
token is the part word, with the part of a character after it. -/
theorem tokenise_spec (hp : IsPart part) (isFinalWord : Bool)
    (hfinal : isFinalWord = true → part = [])
    {cs : List BString} (ht : IsText cs) (partWord : BString)
    (hs : partWord ++ s = cs.flatten ++ part) :
    tokenise L s partWord isFinalWord false =
      if isFinalWord then (wordsOf L (allTokens L cs part), [])
      else (wordsOf L (allTokens L cs part).dropLast, (allTokens L cs part).getLast?.getD [] ++
        part) := by
  have h := tokens_new (L := L) hp isFinalWord hfinal ht hs
  unfold tokenise wordsOf
  simp only [Bool.false_eq_true, if_false, List.nil_append]
  rw [h]
  cases isFinalWord with
  | false => rfl
  | true => rfl

end BeeFish
