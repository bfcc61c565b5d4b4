/-
# Tokens of a text

`BString::tokenise` (b-string/b-string-base.h) reads a text character by
character (`nextUTF8`) and finds its words and emojis with an iterator. A text
that comes in pages is read with a part word: the last token of a page, and
the bytes of a character that the page ends inside, are carried to the next
page. The iterator and its copy that looks ahead share the bytes of the
unfinished character.

What the C library says of a character, and its lower case, are a `Locale`;
`char` is signed, so that no byte of a character asks for another one
(`expectNextByte`).

Key definitions: `Locale`, `nextUTF8`, `Iterator`, `tokenise`.
-/
import BeeFish.Encoding
import BeeFish.Lib.Utf8

namespace BeeFish

/-! ### Characters -/

/-- `std::iswspace` and `std::iswpunct` of the first character of a string, and
the lower case of a string (`BString::toLower`). The source throws a
`range_error` for bytes that are no UTF-8; what `toLower` gives for these says
nothing about it, and results about the run of a program take texts in UTF-8. -/
structure Locale where
  iswspace : BString → Bool
  iswpunct : BString → Bool
  toLower : BString → BString

namespace BString

/-- `BString::isEmoji` -/
def isEmoji (character : BString) : Bool :=
  let codepoint := Utf8.codepoint character
  (0x1F600 ≤ codepoint && codepoint ≤ 0x1F64F) || (0x1F300 ≤ codepoint && codepoint ≤ 0x1F5FF) ||
    (0x1F680 ≤ codepoint && codepoint ≤ 0x1F6FF) || (0x1F900 ≤ codepoint && codepoint ≤ 0x1F9FF) ||
    (0x2600 ≤ codepoint && codepoint ≤ 0x26FF)

/-- `BString::isSpace` -/
def isSpace (L : Locale) (character : BString) : Bool :=
  character.length != 0 && L.iswspace character

/-- `BString::isPunctuation` -/
def isPunctuation (L : Locale) (character : BString) : Bool :=
  character.length != 0 && L.iswpunct character && !isEmoji character

/-- `BString::isSeperator`: a dot, a dash or an underscore. -/
def isSeperator : BString → Bool
  | [] => false
  | c :: _ => c == 46 || c == 45 || c == 95

/-! ### Reading characters -/

/-- `BString::expectedBytes` -/
def expectedBytes (c : UInt8) : ℕ :=
  if c &&& 0xF0 = 0xF0 then 4
  else if c &&& 0xE0 = 0xE0 then 3
  else if c &&& 0xC0 = 0xC0 then 2
  else if c &&& 0x80 = 0x80 then 1
  else 0

/-- `BString::expectNextByte`; the masked byte is not negative. -/
def expectNextByte (c : UInt8) : Bool := decide (c < 0x80) && c &&& 0xBF == c

/-- The loop of `nextUTF8` on the bytes that follow. -/
def readPart (expected : ℕ) (part : BString) : BString → ℕ × BString
  | [] => (expected - 1, part)
  | c :: rest =>
    let expected := expected - 1
    if expected = 0 then (expected, part)
    else readPart (if expectNextByte c then expected + 1 else expected) (part ++ [c]) rest

/-- `BString::nextUTF8`: the character at the position, empty if it is not
complete, the next position and the part of an incomplete character. -/
def nextUTF8 (s : BString) (position : ℕ) (partUTF8 : BString) : BString × ℕ × BString :=
  match (partUTF8 ++ s).drop position with
  | [] => ([], position, partUTF8)
  | c :: rest =>
    let (expected, part) := readPart (expectedBytes c) [c] rest
    let position := position + part.length
    if expected = 0 then (part, position, []) else ([], position + part.length, part)

theorem length_readPart (part : BString) : ∀ (rest : BString) (expected : ℕ) (q : BString),
    part.length ≤ q.length → part.length ≤ (readPart expected q rest).2.length
  | [], _, _, h => h
  | c :: rest, expected, q, h => by
    simp only [readPart]
    split_ifs
    · exact h
    · exact length_readPart part rest _ _ (by simp; omega)
    · exact length_readPart part rest _ _ (by simp; omega)

/-- A character takes a byte at least. -/
theorem lt_nextUTF8 {s : BString} {position : ℕ} (h : position < s.length) (partUTF8 : BString) :
    position < (nextUTF8 s position partUTF8).2.1 := by
  unfold nextUTF8
  cases hd : (partUTF8 ++ s).drop position with
  | nil =>
    have hlen := congrArg List.length hd
    simp only [List.length_drop, List.length_append, List.length_nil] at hlen
    omega
  | cons c rest =>
    have hl := length_readPart [c] rest (expectedBytes c) [c] (Nat.le_refl _)
    simp only [List.length_singleton] at hl
    simp only
    split_ifs <;> dsimp only <;> omega

end BString

open BString

/-! ### The iterator -/

/-- What the first loop of `setValue` comes to. -/
inductive Found where
  | nothing
  | emoji (character : BString)
  | word (character : BString)

/-- Skip blanks and punctuation. -/
def skip (L : Locale) (s : BString) (position : ℕ) (partUTF8 : BString) : Found × ℕ × BString :=
  if h : position < s.length then
    let next := nextUTF8 s position partUTF8
    have := lt_nextUTF8 h partUTF8
    if next.2.2.length = 0 then
      if isEmoji next.1 then (.emoji next.1, next.2)
      else if !isSpace L next.1 && !isPunctuation L next.1 then (.word next.1, next.2)
      else skip L s next.2.1 next.2.2
    else skip L s next.2.1 next.2.2
  else (.nothing, position, partUTF8)
termination_by s.length - position

/-- Read the rest of the word. -/
def readWord (L : Locale) (s : BString) (position : ℕ) (partUTF8 word : BString) :
    BString × ℕ × BString :=
  if h : position < s.length then
    let next := nextUTF8 s position partUTF8
    have := lt_nextUTF8 h partUTF8
    if next.2.2.length = 0 then
      if isEmoji next.1 then
        if word.length ≠ 0 then (word, position, next.2.2) else (next.1, next.2)
      else if isSpace L next.1 ||
        (isPunctuation L next.1 && !isSeperator next.1) then (word, next.2)
      else readWord L s next.2.1 next.2.2 (word ++ next.1)
    else readWord L s next.2.1 next.2.2 word
  else (word, position, partUTF8)
termination_by s.length - position

/-- The bytes of an unfinished character are shared with other iterators and
passed along. -/
structure Iterator where
  position : ℕ
  value : BString
  isEnd : Bool

namespace Iterator

/-- The end of `setValue`. -/
def setWord (it : Iterator) : BString × ℕ × BString → Bool × Iterator × BString
  | (word, position, partUTF8) =>
    if partUTF8.length = 0 ∧
      word.length ≠ 0 then (true, { it with position := position, value := word }, partUTF8)
    else (false, { it with position := position }, partUTF8)

/-- `Iterator::setValue` -/
def setValue (L : Locale) (s : BString) (it : Iterator) (partUTF8 : BString) :
    Bool × Iterator × BString :=
  match skip L s it.position partUTF8 with
  | (.emoji character, position, partUTF8) =>
    (true, { it with position := position, value := character }, partUTF8)
  | (.word character, position, partUTF8) => it.setWord (readWord L s position partUTF8 character)
  | (.nothing, position, partUTF8) => it.setWord (readWord L s position partUTF8 [])

/-- `Iterator::Iterator` -/
def new (L : Locale) (s partUTF8 : BString) : Iterator × BString :=
  let (found, it, partUTF8) := setValue L s ⟨0, [], true⟩ partUTF8
  ({ it with isEnd := !found }, partUTF8)

/-- `Iterator::operator ++` -/
def next (L : Locale) (s : BString) (it : Iterator) (partUTF8 : BString) : Iterator × BString :=
  if it.isEnd then (it, partUTF8)
  else
    let (found, it, partUTF8) := setValue L s it partUTF8
    ({ it with isEnd := !found }, partUTF8)

end Iterator

/-! ### The iterator goes forward -/

theorem skip_lt (L : Locale) (s : BString) (position : ℕ) (partUTF8 : BString) :
    (skip L s position partUTF8).1 = .nothing ∨
      position < s.length ∧ position < (skip L s position partUTF8).2.1 := by
  induction position, partUTF8 using skip.induct L s with
  | case1 position partUTF8 h next hlt hp he =>
    rw [skip, dif_pos h, if_pos hp, if_pos he]
    exact Or.inr ⟨h, hlt⟩
  | case2 position partUTF8 h next hlt hp he hw =>
    rw [skip, dif_pos h, if_pos hp, if_neg he, if_pos hw]
    exact Or.inr ⟨h, hlt⟩
  | case3 position partUTF8 h next hlt hp he hw ih =>
    rw [skip, dif_pos h, if_pos hp, if_neg he, if_neg hw]
    exact ih.imp_right fun ⟨_, hlt'⟩ => ⟨h, Nat.lt_trans hlt hlt'⟩
  | case4 position partUTF8 h next hlt hp ih =>
    rw [skip, dif_pos h, if_neg hp]
    exact ih.imp_right fun ⟨_, hlt'⟩ => ⟨h, Nat.lt_trans hlt hlt'⟩
  | case5 position partUTF8 h =>
    rw [skip, dif_neg h]
    exact Or.inl rfl

/-- Nothing is found at the end only. -/
theorem skip_end (L : Locale) (s : BString) (position : ℕ) (partUTF8 : BString)
    (h : (skip L s position partUTF8).1 = .nothing) :
    ¬ (skip L s position partUTF8).2.1 < s.length := by
  induction position, partUTF8 using skip.induct L s with
  | case1 position partUTF8 hlt next _ hp he =>
    rw [skip, dif_pos hlt, if_pos hp, if_pos he] at h
    cases h
  | case2 position partUTF8 hlt next _ hp he hw =>
    rw [skip, dif_pos hlt, if_pos hp, if_neg he, if_pos hw] at h
    cases h
  | case3 position partUTF8 hlt next _ hp he hw ih =>
    rw [skip, dif_pos hlt, if_pos hp, if_neg he, if_neg hw] at h ⊢
    exact ih h
  | case4 position partUTF8 hlt next _ hp ih =>
    rw [skip, dif_pos hlt, if_neg hp] at h ⊢
    exact ih h
  | case5 position partUTF8 hlt =>
    rw [skip, dif_neg hlt]
    exact hlt

theorem le_readWord (L : Locale) (s : BString) (position : ℕ) (partUTF8 word : BString) :
    position ≤ (readWord L s position partUTF8 word).2.1 := by
  induction position, partUTF8, word using readWord.induct L s with
  | case1 position partUTF8 word h next hlt hp he hw =>
    rw [readWord, dif_pos h, if_pos hp, if_pos he, if_pos hw]
  | case2 position partUTF8 word h next hlt hp he hw =>
    rw [readWord, dif_pos h, if_pos hp, if_pos he, if_neg hw]
    exact Nat.le_of_lt hlt
  | case3 position partUTF8 word h next hlt hp he hb =>
    rw [readWord, dif_pos h, if_pos hp, if_neg he, if_pos hb]
    exact Nat.le_of_lt hlt
  | case4 position partUTF8 word h next hlt hp he hb ih =>
    rw [readWord, dif_pos h, if_pos hp, if_neg he, if_neg hb]
    exact Nat.le_trans (Nat.le_of_lt hlt) ih
  | case5 position partUTF8 word h next hlt hp ih =>
    rw [readWord, dif_pos h, if_neg hp]
    exact Nat.le_trans (Nat.le_of_lt hlt) ih
  | case6 position partUTF8 word h =>
    rw [readWord, dif_neg h]

/-- `setValue` has read something when it finds a value. -/
theorem setValue_lt (L : Locale) (s : BString) (it : Iterator) (partUTF8 : BString)
    (h : (it.setValue L s partUTF8).1 = true) :
    it.position < s.length ∧ it.position < (it.setValue L s partUTF8).2.1.position := by
  have hskip := skip_lt L s it.position partUTF8
  have hword : ∀ r : BString × ℕ × BString, it.position < r.2.1 →
    it.position < (it.setWord r).2.1.position := by
    rintro ⟨word, position, part⟩ hlt
    simp only [Iterator.setWord]
    split_ifs <;> exact hlt
  unfold Iterator.setValue at h ⊢
  cases hs : skip L s it.position partUTF8 with
  | mk found r =>
    obtain ⟨position, part⟩ := r
    rw [hs] at hskip h
    cases found with
    | nothing =>
      -- nothing is read at the end, so there is no word
      exfalso
      have hend := skip_end L s it.position partUTF8 (by rw [hs])
      rw [hs] at hend
      simp only at h
      rw [readWord, dif_neg hend] at h
      simp [Iterator.setWord] at h
    | emoji c => exact hskip.resolve_left (by simp)
    | word c =>
      obtain ⟨hlt, hpos⟩ := hskip.resolve_left (by simp)
      exact ⟨hlt, hword _ (Nat.lt_of_lt_of_le hpos (le_readWord L s position part c))⟩

/-- Steps left for an iterator. -/
def Iterator.left (s : BString) (it : Iterator) : ℕ :=
  if it.isEnd then 0 else s.length - it.position + 1

theorem left_next (L : Locale) (s : BString) (it : Iterator) (partUTF8 : BString)
    (h : ¬ it.isEnd = true) :
    (it.next L s partUTF8).1.left s < it.left s := by
  unfold Iterator.next
  rw [if_neg h]
  unfold Iterator.left
  rw [if_neg h]
  have hlt := setValue_lt L s it partUTF8
  generalize it.setValue L s partUTF8 = r at hlt ⊢
  obtain ⟨found, it', part⟩ := r
  cases found with
  | false => simp
  | true =>
    obtain ⟨h1, h2⟩ := hlt rfl
    simp only at h2
    simp only [Bool.not_true, Bool.false_eq_true, if_false]
    omega

/-! ### The tokens -/

/-- The loop of `tokenise`: the tokens, the part word and the bytes of an
unfinished character. -/
def tokens (L : Locale) (s : BString) (isFinalWord : Bool) (it : Iterator) (partUTF8 : BString) :
    List BString × BString × BString :=
  if _h : it.isEnd then ([], [], partUTF8)
  else
    let test := it.next L s partUTF8
    if !isFinalWord && test.1.isEnd then ([], it.value, test.2)
    else
      let rest := tokens L s isFinalWord (it.next L s test.2).1 (it.next L s test.2).2
      (it.value :: rest.1, rest.2)
termination_by it.left s
decreasing_by exact left_next L s it _ ‹_›

/-- The loop of `splitOnDot`: the lower case of what stands between
separators. -/
def splitOnDot (L : Locale) (word : BString) (index : ℕ) (split : BString) : List BString :=
  if h : index < word.length then
    let next := nextUTF8 word index []
    have := lt_nextUTF8 h []
    if isSeperator next.1 then
      (if split.length ≠ 0 then [L.toLower split] else []) ++ splitOnDot L word next.2.1 []
    else splitOnDot L word next.2.1 (split ++ next.1)
  else if split.length ≠ 0 then [L.toLower split] else []
termination_by word.length - index

/-- `std::unique` -/
def unique : List BString → List BString
  | a :: b :: words => if a = b then unique (b :: words) else a :: unique (b :: words)
  | words => words

/-- The words of a token. -/
def tokenWords (L : Locale) (token : BString) : List BString :=
  splitOnDot L token 0 [] ++ [L.toLower token]

/-- `BString::tokenise`: the words in order, each once, and the part word. -/
def tokenise (L : Locale) (s partWord : BString) (isFinalWord useWholeWord : Bool) :
    List BString × BString :=
  let value := partWord ++ s
  let (it, partUTF8) := Iterator.new L value []
  let (tokens, partWord, partUTF8) := tokens L value isFinalWord it partUTF8
  let words := (if useWholeWord then [L.toLower s] else []) ++ tokens.flatMap (tokenWords L)
  (unique (words.mergeSort fun a b => !decide (b < a)), partWord ++ partUTF8)

theorem mem_unique {w : BString} : ∀ words : List BString, w ∈ unique words ↔ w ∈ words
  | [] => Iff.rfl
  | [_] => Iff.rfl
  | a :: b :: words => by
    rw [unique]
    split_ifs with hab
    · rw [mem_unique (b :: words), hab]
      simp
    · rw [List.mem_cons, mem_unique (b :: words)]
      exact List.mem_cons.symm

end BeeFish
