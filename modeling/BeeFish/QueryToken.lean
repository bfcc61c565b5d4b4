/-
# The matchers of a token

What each matcher of a token does with a character, and what it is then. A word
goes on until a separator comes. An operator is given up with the first
character that is not in its word, and has succeeded with the last one, so a
token that begins with the word of an operator is this operator and the rest
(`matches_token_run`).

Key definitions: `wordAt`, `OperatorAt`, `TokenAt`.
-/
import BeeFish.QueryMatch

namespace BeeFish

open QueryGrammar
open Match (orLoop_failed orLoop_more orLoop_found matches_or_found matches_or_none)

/-- The operator that is written with the characters, in any case. -/
def Expression.operator (e : Expression) (run : List BString) : Option Token :=
  let lower := run.flatMap e.toLower
  if lower = e.toLower (text "not") then some .not
  else if lower = e.toLower (text "and") then some .and
  else if lower = e.toLower (text "or") then some .or
  else none

/-- The object of the expression is fed the token. -/
def ExpressionObject.feed (object : ExpressionObject) (t : Token) :
    Except Failure ExpressionObject :=
  object.pushed t (t.feed object.expression object.stack)

/-- The calls feed the token to the expression. -/
def Feeds (e : Expression) (calls : List (TokenCall × QueryMatch)) (t : Token) : Prop :=
  ∀ object : ExpressionObject, object.expression = e →
    calls.foldlM (fun self call => queryProgram.onsuccess call.1 call.2 self) object = object.feed t

/-! ### Single characters -/

section

variable {n : ℕ} {c : BString}

theorem orLoop_characters (n : ℕ) (c : BString) : ∀ (cs : List BString) (before : List QueryMatch),
    ∃ ms i, Match.orLoop (Match.matches_ queryProgram (n + 1) · c) before false
      (cs.map fun c => .character (some c) none) = .ok (ms, decide (c ∈ cs), i, []) ∧
        i.isSome = decide (c ∈ cs)
  | [], before => ⟨before, none, rfl, rfl⟩
  | k :: cs, before => by
    by_cases hk : k = c
    · subst hk
      refine ⟨before ++ .character (some k) (some true) :: cs.map fun c => .character (some c) none,
        some before.length,
        ?_, by simp⟩
      simp [Match.orLoop, Match.matches_, Match.result]
    · obtain ⟨ms, i, hrun, hi⟩ :=
        orLoop_characters n c cs (before ++ [.character (some k) (some false)])
      have hc : decide (c ∈ k :: cs) = decide (c ∈ cs) := by simp [Ne.symm hk]
      have hkc : (k == c) = false := by simpa using hk
      rw [hc]
      exact ⟨ms, i, by simp [Match.orLoop, Match.matches_, Match.result, hkc, hrun], hi⟩

/-- One of some characters. -/
theorem matches_oneOf (n : ℕ) (c : BString) (cs : List BString) :
    ∃ m, (oneOf cs).matches_ queryProgram (n + 2) c =
    .ok (m, decide (c ∈ cs), []) ∧ m.result = some (decide (c ∈ cs)) := by
  obtain ⟨ms, i, hrun, hi⟩ := orLoop_characters n c cs []
  have hnone : (oneOf cs).result = none := rfl
  unfold oneOf at hnone ⊢
  rw [Match.matches_]
  simp only [hnone, hrun, Run.ok_bind, Run.pure_eq]
  by_cases hc : c ∈ cs
  · exact ⟨.or ms i (some true), by simp [hc, hi], by simp [hc, Match.result]⟩
  · exact ⟨.or ms none (some false), by simp [hc, hi], by simp [hc, Match.result]⟩

theorem eof_oneOf (n : ℕ) (cs : List BString) :
    ∃ m, (oneOf cs).eof queryProgram (n + 2) = .ok (m, []) ∧
    m.result = some false := by
  have hloop : ∀ (cs : List BString) (before : List QueryMatch), ∃ ms,
      Match.orEof (Match.eof queryProgram (n + 1)) before
        (cs.map fun c => .character (some c) none) =
        .ok (ms, none, []) := by
    intro cs
    induction cs with
    | nil => exact fun before => ⟨before, rfl⟩
    | cons k cs ih =>
      intro before
      obtain ⟨ms, hms⟩ := ih (before ++ [.character (some k) (some false)])
      exact ⟨ms, by simp [Match.orEof, Match.eof, Match.setResult, Match.result, hms]⟩
  obtain ⟨ms, hms⟩ := hloop cs []
  have hnone : (oneOf cs).result = none := rfl
  unfold oneOf at hnone ⊢
  rw [Match.eof]
  exact ⟨.or ms none (some false), by simp [hnone, hms], rfl⟩

/-! ### Blanks -/

/-- So many blanks have been read. -/
def blanksAt (count : ℕ) : QueryMatch :=
  .repeated blankspace (if count = 0 then none else some blankspace) 0 0 count none

theorem blanksAt_getD (count : ℕ) :
    (if count = 0 then none else some blankspace).getD blankspace = blankspace := by
  split_ifs <;> rfl

theorem matches_blank (n count : ℕ) (hc : c ∈ blanks) :
    (blanksAt count).matches_ queryProgram (n + 3) c = .ok (blanksAt (count + 1), true, []) := by
  obtain ⟨m, hrun, hm⟩ := matches_oneOf n c blanks
  unfold blanksAt
  rw [Match.matches_, blanksAt_getD]
  unfold blankspace
  simp [hrun, hm, hc]

theorem matches_noBlank (n count : ℕ) (hc : c ∉ blanks) :
    ∃ m, (blanksAt count).matches_ queryProgram (n + 3) c =
    .ok (m, false, []) ∧ m.result = some true := by
  obtain ⟨m, hrun, hm⟩ := matches_oneOf n c blanks
  refine ⟨.repeated blankspace (some m) 0 0 count (some true), ?_, rfl⟩
  unfold blanksAt
  rw [Match.matches_, blanksAt_getD]
  unfold blankspace
  simp [hrun, hm, hc]

theorem eof_blanks (n count : ℕ) : ∃ m, (blanksAt count).eof queryProgram (n + 3) = .ok (m, []) ∧
    m.result = some true := by
  obtain ⟨m, hrun, hm⟩ := eof_oneOf n blanks
  have hnone : blankspace.result = none := rfl
  have hrun' : blankspace.eof queryProgram (n + 2) = .ok (m, []) := hrun
  unfold blanksAt
  by_cases h0 : count = 0
  · exact ⟨.repeated blankspace none 0 0 count (some true), by simp [h0, Match.eof,
      Match.setResult], rfl⟩
  · exact ⟨.repeated blankspace (some m) 0 0 count (some true),
      by simp [h0, Match.eof, hnone, hrun', hm, Match.setResult], rfl⟩

/-! ### Words -/

/-- What `Word::success` looks for. -/
def isWord (value : BString) : Bool :=
  !(value == text "and" || value == text "or" || value == text "not")

theorem matches_wordCharacter (n : ℕ) (c : BString) : ∃ m, wordCharacter.matches_ queryProgram
    (n + 3) c =
    .ok (m, decide (c ∉ seperators), []) ∧ m.result = some (decide (c ∉ seperators)) := by
  obtain ⟨m, hrun, hm⟩ := matches_oneOf n c seperators
  unfold wordCharacter seperator
  by_cases hc : c ∈ seperators
  · exact ⟨.not m (some false), by simp [Match.matches_, hrun, hm, hc], by simp [hc, Match.result]⟩
  · exact ⟨.not m (some true), by simp [Match.matches_, hrun, hc], by simp [hc, Match.result]⟩

theorem eof_wordCharacter (n : ℕ) : ∃ m, wordCharacter.eof queryProgram (n + 3) = .ok (m, []) ∧
    m.result = some true := by
  obtain ⟨m, hrun, hm⟩ := eof_oneOf n seperators
  have hnone : wordCharacter.result = none := rfl
  refine ⟨.not m (some true), ?_, rfl⟩
  unfold wordCharacter seperator at hnone ⊢
  rw [Match.eof]
  simp [hnone, hrun, hm]
  rfl

/-- So many characters of a word have been read. -/
def wordCharactersAt (count : ℕ) : QueryMatch :=
  .repeated wordCharacter (if count = 0 then none else some wordCharacter) 1 0 count none

theorem wordCharactersAt_result (count : ℕ) : (wordCharactersAt count).result = none := by
  cases count <;> rfl

theorem wordCharactersAt_getD (count : ℕ) :
    (if count = 0 then none else some wordCharacter).getD wordCharacter = wordCharacter := by
  split_ifs <;> rfl

theorem matches_wordCharacters (n count : ℕ) (hc : c ∉ seperators) :
    (wordCharactersAt count).matches_ queryProgram (n + 4) c = .ok
    (wordCharactersAt (count + 1), true, []) := by
  obtain ⟨m, hrun, hm⟩ := matches_wordCharacter n c
  unfold wordCharactersAt
  rw [Match.matches_, wordCharactersAt_getD]
  simp [hrun, hm, hc]

theorem matches_wordCharacters_end (n count : ℕ) (hc : c ∈ seperators) : ∃ m,
    (wordCharactersAt count).matches_ queryProgram (n + 4) c = .ok (m, false, []) ∧
      m.result = some (decide (1 ≤ count)) := by
  obtain ⟨m, hrun, hm⟩ := matches_wordCharacter n c
  refine ⟨.repeated wordCharacter (some m) 1 0 count (some (decide (1 ≤ count))), ?_, rfl⟩
  unfold wordCharactersAt
  rw [Match.matches_, wordCharactersAt_getD]
  simp [hrun, hm, hc]

theorem eof_wordCharacters (n count : ℕ) :
    ∃ m, (wordCharactersAt count).eof queryProgram (n + 4) = .ok (m, []) ∧
    m.result = some (decide (1 ≤ count)) := by
  obtain ⟨m, hrun, hm⟩ := eof_wordCharacter n
  have hnone : wordCharacter.result = none := rfl
  unfold wordCharactersAt
  by_cases h0 : count = 0
  · exact ⟨.repeated wordCharacter none 1 0 count (some false), by simp [h0, Match.eof,
      Match.setResult],
      by simp [h0, Match.result]⟩
  · refine ⟨.repeated wordCharacter (some m) 1 0 (count + 1) (some true),
      by simp [h0, Match.eof, hnone, hrun, hm, Match.setResult], ?_⟩
    simp [Match.result, Nat.one_le_iff_ne_zero, h0]

/-- The characters of a word that have been read. -/
def wordAt (run : List BString) : QueryMatch :=
  .capture isWord run.flatten (wordCharactersAt run.length) none

theorem wordAt_result (run : List BString) : (wordAt run).result = none :=
  wordCharactersAt_result run.length

theorem matches_word (n : ℕ) (run : List BString) (hc : c ∉ seperators) :
    (wordAt run).matches_ queryProgram (n + 5) c = .ok (wordAt (run ++ [c]), true, []) := by
  have hnone := wordAt_result run
  unfold wordAt at hnone ⊢
  rw [Match.matches_]
  simp [hnone, matches_wordCharacters n run.length hc, wordCharactersAt_result]

/-- A separator ends the word. -/
theorem matches_word_end (n : ℕ) (run : List BString) (hc : c ∈ seperators) : ∃ m,
    (wordAt run).matches_ queryProgram (n + 5) c = .ok (m, false, []) ∧ m.value = run.flatten ∧
      m.result = some (decide (1 ≤ run.length) && isWord run.flatten) := by
  obtain ⟨m, hrun, hm⟩ := matches_wordCharacters_end n run.length hc
  have hnone := wordAt_result run
  refine ⟨.capture isWord run.flatten m (some (decide (1 ≤ run.length) && isWord run.flatten)),
    ?_, rfl, rfl⟩
  unfold wordAt at hnone ⊢
  rw [Match.matches_]
  simp [hnone, hrun, hm]

theorem eof_word (n : ℕ) (run : List BString) :
    ∃ m, (wordAt run).eof queryProgram (n + 5) = .ok (m, []) ∧
    m.value = run.flatten ∧ m.result = some (decide (1 ≤ run.length) && isWord run.flatten) := by
  obtain ⟨m, hrun, hm⟩ := eof_wordCharacters n run.length
  refine ⟨.capture isWord run.flatten m (some (decide (1 ≤ run.length) && isWord run.flatten)),
    ?_, rfl, rfl⟩
  unfold wordAt
  rw [Match.eof]
  simp [wordCharactersAt_result, hrun, hm, Match.setResult]

/-! ### Operators -/

/-- The part of a token has failed. -/
def Failed (m : QueryMatch) : Prop :=
  ∃ call k, m = .invoke call k (some false) ∧ k.result = some false

theorem Failed.result {m : QueryMatch} (h : Failed m) : m.result = some false := by
  obtain ⟨call, k, rfl, -⟩ := h
  rfl

theorem Failed.eof {m : QueryMatch} (h : Failed m) (n : ℕ) :
    m.eof queryProgram (n + 1) = .ok (m, []) := by
  obtain ⟨call, k, rfl, hk⟩ := h
  rw [Match.eof]
  simp [hk]

variable {lower : BString → BString} {call : TokenCall} {word letter left : BString}

/-- An operator of whose word something is left. -/
def operatorAt (lower : BString → BString) (call : TokenCall) (letter left : BString)
    (fresh : Option Bool) : QueryMatch :=
  .invoke call (.or [.word lower left none, .character (some letter) fresh] none none) none

theorem operatorAt_result (fresh : Option Bool) :
    (operatorAt lower call letter left fresh).result = none :=
  rfl

theorem matches_operator_last (call : TokenCall) (letter : BString) (n : ℕ) (fresh : Option Bool)
    (h0 : left ≠ []) (hc : lower c = left) : ∃ m m',
    (operatorAt lower call letter left fresh).matches_ queryProgram (n + 3) c = .ok
    (m, true, [(call, m')]) ∧
      m.result = some true := by
  subst hc
  have hmatch := (Match.matchChar_spec h0).1 (List.prefix_refl (lower c))
  rw [List.drop_length] at hmatch
  refine ⟨.invoke call (.or [.word lower [] (some true), .character (some letter) fresh] (some 0)
    (some true)) (some true),
    .or [.word lower [] (some true), .character (some letter) fresh] (some 0) (some true), ?_, rfl⟩
  unfold operatorAt
  simp [Match.matches_, Match.result, Match.orLoop, hmatch]

theorem matches_operator_more (call : TokenCall) (n : ℕ) {fresh : Option Bool} (hc : c ≠ letter)
    (hfresh : fresh ≠ some true)
    (h0 : left ≠ []) (hp : lower c <+: left) (hne : lower c ≠ left) :
    (operatorAt lower call letter left fresh).matches_ queryProgram (n + 3) c =
      .ok (operatorAt lower call letter (left.drop (lower c).length) (some false), true, []) := by
  have hmatch := (Match.matchChar_spec h0).1 hp
  have hdrop : left.drop (lower c).length ≠ [] := by
    obtain ⟨rest, rfl⟩ := hp
    rw [List.drop_left]
    rintro rfl
    simp at hne
  have hcl : (letter == c) = false := by simpa using Ne.symm hc
  unfold operatorAt
  rcases fresh with _ | _ | _
  · simp [Match.matches_, Match.result, Match.orLoop, hmatch, hdrop, hcl]
  · simp [Match.matches_, Match.result, Match.orLoop, hmatch, hdrop]
  · exact absurd rfl hfresh

theorem matches_operator_other (call : TokenCall) (n : ℕ) {fresh : Option Bool} (hc : c ≠ letter)
    (hfresh : fresh ≠ some true)
    (h0 : left ≠ []) (hp : ¬ lower c <+: left) : ∃ m,
    (operatorAt lower call letter left fresh).matches_ queryProgram (n + 3) c = .ok (m, false, []) ∧
      Failed m := by
  have hmatch := (Match.matchChar_spec h0).2 hp
  have hcl : (letter == c) = false := by simpa using Ne.symm hc
  generalize hr : Match.matchChar left (lower c) = r at hmatch
  obtain ⟨index, ok⟩ := r
  obtain rfl : ok = false := hmatch
  refine ⟨.invoke call (.or [.word lower index (some false), .character (some letter) (some false)]
    none (some false))
    (some false), ?_, call, _, rfl, rfl⟩
  unfold operatorAt
  rcases fresh with _ | _ | _
  · simp [Match.matches_, Match.result, Match.orLoop, hr, hcl]
  · simp [Match.matches_, Match.result, Match.orLoop, hr]
  · exact absurd rfl hfresh

theorem matches_operator_letter (call : TokenCall) (n : ℕ) (h0 : left ≠ [])
    (hp : ¬ lower letter <+: left) : ∃ m m',
    (operatorAt lower call letter left none).matches_ queryProgram (n + 3) letter = .ok
    (m, true, [(call, m')]) ∧
      m.result = some true := by
  have hmatch := (Match.matchChar_spec h0).2 hp
  generalize hr : Match.matchChar left (lower letter) = r at hmatch
  obtain ⟨index, ok⟩ := r
  obtain rfl : ok = false := hmatch
  refine ⟨.invoke call (.or [.word lower index (some false), .character (some letter) (some true)]
    (some 1) (some true))
    (some true), .or [.word lower index (some false), .character (some letter) (some true)] (some 1)
      (some true), ?_, rfl⟩
  unfold operatorAt
  simp [Match.matches_, Match.result, Match.orLoop, hr]

/-! ### A token -/

/-- Lower case leaves the other bytes of ASCII as they are. -/
def LowersAscii (lower : BString → BString) : Prop :=
  ∀ s : BString, (∀ b ∈ s, b < 0x80 ∧ ¬ (65 ≤ b ∧ b ≤ 90)) → lower s = s

set_option maxRecDepth 4000 in
theorem LowersAscii.operator (h : LowersAscii lower) :
    lower (text "not") = text "not" ∧ lower (text "and") = text "and" ∧
      lower (text "or") = text "or" :=
  ⟨h _ (by decide), h _ (by decide), h _ (by decide)⟩

set_option maxRecDepth 4000 in
theorem LowersAscii.seperator (h : LowersAscii lower) (hc : c ∈ seperators) : lower c = c := by
  have hall : ∀ c ∈ seperators, ∀ b ∈ c, b < 0x80 ∧ ¬ (65 ≤ b ∧ b ≤ 90) := by decide
  exact h c (hall c hc)

/-- The operator could still be the token that starts with the characters, or
it has failed. -/
def OperatorAt (lower : BString → BString) (call : TokenCall) (word letter : BString)
    (run : List BString)
    (m : QueryMatch) : Prop :=
  (∃ left, run.flatMap lower ++ left = lower word ∧ left ≠ [] ∧
      m = operatorAt lower call letter left (if run = [] then none else some false)) ∨
    ¬ run.flatMap lower <+: lower word ∧ m.result = some false

theorem OperatorAt.ne {run : List BString} {m : QueryMatch}
    (h : OperatorAt lower call word letter run m) :
    run.flatMap lower ≠ lower word := by
  rcases h with ⟨left, hl, h0, -⟩ | ⟨hp, -⟩
  · intro he
    rw [he] at hl
    exact h0 (List.append_right_eq_self.mp hl)
  · intro he
    exact hp (by rw [he])

/-- A character of a word is pushed to the operator. -/
theorem orLoop_operator (n : ℕ) (hc : c ≠ letter) {run : List BString} {m : QueryMatch}
    (h : OperatorAt lower call word letter run m) (before inputs : List QueryMatch) :
    ((run ++ [c]).flatMap lower = lower word ∧ ∃ m' m'',
      Match.orLoop (Match.matches_ queryProgram (n + 3) · c) before true (m :: inputs) =
        .ok (before ++ m' :: inputs, true, some before.length, [(call, m'')])) ∨
    ((run ++ [c]).flatMap lower ≠ lower word ∧ ∃ m', OperatorAt lower call word letter
      (run ++ [c]) m' ∧
      Match.orLoop (Match.matches_ queryProgram (n + 3) · c) before true (m :: inputs) =
        Match.orLoop (Match.matches_ queryProgram (n + 3) · c) (before ++ [m']) true inputs) := by
  have happend : (run ++ [c]).flatMap lower = run.flatMap lower ++ lower c := by simp
  rw [happend]
  rcases h with ⟨left, hl, h0, rfl⟩ | ⟨hp, hr⟩
  · have hfresh : (if run = [] then none else some false : Option Bool) ≠ some true := by
      split_ifs <;> simp
    rw [← hl]
    by_cases hlast : lower c = left
    · obtain ⟨m, m', hrun, hm⟩ :=
        matches_operator_last call letter n (if run = [] then none else some false) h0 hlast
      exact Or.inl ⟨by rw [hlast], m, m', orLoop_found before (operatorAt_result _) hrun hm⟩
    · refine Or.inr ⟨fun he => hlast (List.append_cancel_left he), ?_⟩
      by_cases hp : lower c <+: left
      · have hrun := matches_operator_more call n hc hfresh h0 hp hlast
        obtain ⟨rest, rfl⟩ := hp
        rw [List.drop_left] at hrun
        refine ⟨_, Or.inl ⟨rest, ?_, ?_, ?_⟩, orLoop_more before (operatorAt_result _) hrun
          (by simp [operatorAt_result])⟩
        · rw [← hl, happend, List.append_assoc]
        · rintro rfl
          simp at hlast
        · simp
      · obtain ⟨m, hrun, hm⟩ := matches_operator_other call n hc hfresh h0 hp
        refine ⟨m, Or.inr ⟨?_, hm.result⟩, orLoop_more before (operatorAt_result _) hrun
          (by simp [hm.result])⟩
        rw [← hl, happend, List.prefix_append_right_inj]
        exact hp
  · refine Or.inr ⟨fun he => hp ⟨lower c, he⟩, m, Or.inr ⟨?_, hr⟩, orLoop_failed before hr⟩
    rw [happend]
    exact fun he => hp ((List.prefix_append _ _).trans he)

theorem matches_invoke_word (n : ℕ) (run : List BString) (hc : c ∉ seperators) :
    (.invoke .word (wordAt run) none : QueryMatch).matches_ queryProgram (n + 6) c =
      .ok (.invoke .word (wordAt (run ++ [c])) none, true, []) := by
  have hnone : (.invoke .word (wordAt run) none : QueryMatch).result = none := wordAt_result run
  rw [Match.matches_]
  simp [hnone, matches_word n run hc, wordAt_result]

theorem matches_invoke_word_end (n : ℕ) (run : List BString) (hc : c ∈ seperators) :
    ∃ m : QueryMatch,
    (.invoke .word (wordAt run) none : QueryMatch).matches_ queryProgram (n + 6) c =
      .ok (.invoke .word m m.result, false, if 1 ≤ run.length ∧ isWord run.flatten =
        true then [(.word, m)] else []) ∧
      m.value = run.flatten ∧ m.result = some (decide (1 ≤ run.length) && isWord run.flatten) := by
  have hnone : (.invoke .word (wordAt run) none : QueryMatch).result = none := wordAt_result run
  obtain ⟨m, hrun, hv, hm⟩ := matches_word_end n run hc
  refine ⟨m, ?_, hv, hm⟩
  rw [Match.matches_]
  simp [hnone, hrun, hm]

theorem matches_bracket_other (n : ℕ) (e : Expression) (hc : c ≠ text "(") : ∃ m,
    (.invoke .expression (bracket e) none : QueryMatch).matches_ queryProgram (n + 3) c = .ok
    (m, false, []) ∧
      m.result = some false := by
  have hc' : (text "(" == c) = false := by simpa using Ne.symm hc
  refine ⟨.invoke .expression
    (.and [.character (some (text "(")) (some false), .loadOnDemand e none none,
    .character (some (text ")")) none] 0 (some false)) (some false), ?_, rfl⟩
  unfold bracket
  simp [Match.matches_, Match.result, Match.andLoop, hc']

/-- The token of an operator -/
def operatorCall : TokenCall → Option Token
  | .not => some .not
  | .and => some .and
  | .or => some .or
  | _ => none

theorem feeds_operator {e : Expression} {t : Token} (h : operatorCall call = some t)
    (m : QueryMatch) : Feeds e [(call, m)] t := by
  intro object _
  rw [List.foldlM_cons]
  cases call <;> cases h <;> rfl

theorem feeds_word {e : Expression} {m : QueryMatch} {value : BString} (h : m.value = value) :
    Feeds e [(.word, m)] (.word value) := by
  subst h
  intro object _
  rw [List.foldlM_cons]
  cases hw : queryProgram.onsuccess .word m object with
  | error f => exact hw.symm
  | ok object' => exact hw.symm

/-- A token that is a word so far. -/
def TokenAt (e : Expression) (run : List BString) (m : QueryMatch) : Prop :=
  ∃ not and or bracket', m = .or [.invoke .word (wordAt run) none, not, and, or, bracket']
    none none ∧
    OperatorAt e.toLower .not (text "not") (text "!") run not ∧
    OperatorAt e.toLower .and (text "and") (text "+") run and ∧
    OperatorAt e.toLower .or (text "or") (text "|") run or ∧
    if run = [] then bracket' = .invoke .expression (bracket e) none
      else bracket'.result = some false

theorem tokenAt_new {e : Expression} (h : LowersAscii e.toLower) : TokenAt e [] (token e) := by
  obtain ⟨h1, h2, h3⟩ := h.operator
  refine ⟨_, _, _, _, rfl, Or.inl ⟨e.toLower (text "not"), rfl, ?_, rfl⟩,
    Or.inl ⟨e.toLower (text "and"), rfl, ?_, rfl⟩,
    Or.inl ⟨e.toLower (text "or"), rfl, ?_, rfl⟩, rfl⟩
  · rw [h1]
    decide
  · rw [h2]
    decide
  · rw [h3]
    decide

theorem TokenAt.result {e : Expression} {run : List BString} {m : QueryMatch}
    (h : TokenAt e run m) : m.result = none := by
  obtain ⟨_, _, _, _, rfl, -⟩ := h
  rfl

/-- A character of a word: an operator if it is the last one of it, and else
the token goes on. -/
theorem matches_token_run (n : ℕ) {e : Expression} {run : List BString} {m : QueryMatch}
    (h : TokenAt e run m)
    (hc : c ∉ seperators) :
    (e.operator (run ++ [c]) = none ∧ ∃ m', TokenAt e (run ++ [c]) m' ∧
      m.matches_ queryProgram (n + 7) c = .ok (m', true, [])) ∨
    ∃ t m' calls, e.operator (run ++ [c]) = some t ∧ Feeds e calls t ∧ m'.result = some true ∧
      m.matches_ queryProgram (n + 7) c = .ok (m', true, calls) := by
  obtain ⟨not, and, or, bracket', rfl, hnot, hand, hor, hb⟩ := h
  have hne : ∀ k ∈ seperators, c ≠ k := fun k hk he => hc (he ▸ hk)
  have hnone : ∀ run, (.invoke .word (wordAt run) none : QueryMatch).result = none := wordAt_result
  have hword : Match.orLoop (Match.matches_ queryProgram (n + 6) · c) [] false
      [.invoke .word (wordAt run) none, not, and, or, bracket'] =
      Match.orLoop (Match.matches_ queryProgram (n + 6) · c)
        [.invoke .word (wordAt (run ++ [c])) none] true
        [not, and, or, bracket'] :=
    orLoop_more [] (hnone run) (matches_invoke_word n run hc) (by simp [hnone])
  have hlast :
    ∀ {before after : List QueryMatch} {k k' : QueryMatch} {t : Token} {call : TokenCall},
      Match.orLoop (Match.matches_ queryProgram (n + 6) · c) []
        false [.invoke .word (wordAt run) none, not, and, or, bracket'] =
        .ok (before ++ k :: after, true, some before.length, [(call, k')]) →
          e.operator (run ++ [c]) = some t →
      operatorCall call = some t → ∃ t m' calls, e.operator (run ++ [c]) = some t ∧
        Feeds e calls t ∧ m'.result = some true ∧
        (Match.or [.invoke .word (wordAt run) none, not, and, or, bracket'] none none).matches_
          queryProgram (n + 7) c =
          .ok (m', true, calls) := by
    intro before after k k' t call hloop ht hcall
    exact ⟨t, _, _, ht, feeds_operator hcall k', rfl, matches_or_found (n + 6) hloop⟩
  rcases orLoop_operator (n + 3) (hne _ (by decide)) hnot [.invoke .word (wordAt (run ++ [c])) none]
    [and, or, bracket']
    with ⟨heq, m, m', hloop⟩ | ⟨hne1, not', hnot', hloop1⟩
  · refine Or.inr (hlast (hword.trans hloop) ?_ rfl)
    simp [Expression.operator, ← heq]
  rcases orLoop_operator (n + 3) (hne _ (by decide)) hand [.invoke .word (wordAt (run ++ [c])) none,
    not'] [or, bracket']
    with ⟨heq, m, m', hloop⟩ | ⟨hne2, and', hand', hloop2⟩
  · refine Or.inr (hlast ((hword.trans hloop1).trans hloop) ?_ rfl)
    unfold Expression.operator
    simp only
    rw [if_neg hne1, if_pos heq]
  rcases orLoop_operator (n + 3) (hne _ (by decide)) hor [.invoke .word (wordAt (run ++ [c])) none,
    not', and'] [bracket']
    with ⟨heq, m, m', hloop⟩ | ⟨hne3, or', hor', hloop3⟩
  · refine Or.inr (hlast (((hword.trans hloop1).trans hloop2).trans hloop) ?_ rfl)
    unfold Expression.operator
    simp only
    rw [if_neg hne1, if_neg hne2, if_pos heq]
  -- the word goes on, and the bracket fails if it has not failed before
  obtain ⟨b, hb', hloop4⟩ : ∃ b : QueryMatch, b.result = some false ∧
      Match.orLoop (Match.matches_ queryProgram (n + 6) · c)
        [.invoke .word (wordAt (run ++ [c])) none, not', and', or'] true [bracket'] =
      .ok ([.invoke .word (wordAt (run ++ [c])) none, not', and', or', b], true, none, []) := by
    by_cases h0 : run = []
    · rw [if_pos h0] at hb
      subst hb
      obtain ⟨b, hrun, hb'⟩ := matches_bracket_other (n + 3) e (hne _ (by decide))
      exact ⟨b, hb', orLoop_more _ rfl hrun (by simp [hb'])⟩
    · rw [if_neg h0] at hb
      exact ⟨bracket', hb, orLoop_failed _ hb⟩
  refine Or.inl ⟨?_, _, ⟨not', and', or', b, rfl, hnot', hand', hor', by simp [hb']⟩, ?_⟩
  · unfold Expression.operator
    simp only
    rw [if_neg hne1, if_neg hne2, if_neg hne3]
  · exact matches_or_none (n + 6) ((((hword.trans hloop1).trans hloop2).trans hloop3).trans hloop4)

set_option maxRecDepth 4000 in
/-- The word of a token is no operator. -/
theorem TokenAt.isWord {e : Expression} (hl : LowersAscii e.toLower) {run : List BString}
    {m : QueryMatch}
    (h : TokenAt e run m) : isWord run.flatten = true := by
  obtain ⟨_, _, _, _, -, hnot, hand, hor, -⟩ := h
  have hlower : ∀ w : BString, (∀ b ∈ w, b < 0x80 ∧ ¬ (65 ≤ b ∧ b ≤ 90)) → run.flatten = w →
    run.flatMap e.toLower = w := by
    intro w hw he
    rw [List.flatMap_def, List.map_congr_left (g := id), List.map_id, he]
    intro c hc
    refine hl c fun b hb => hw b ?_
    rw [← he]
    exact List.mem_flatten.mpr ⟨c, hc, hb⟩
  have hne : ∀ {call : TokenCall} {w letter : BString} {m : QueryMatch},
    OperatorAt e.toLower call w letter run m →
      (∀ b ∈ w, b < 0x80 ∧ ¬ (65 ≤ b ∧ b ≤ 90)) → run.flatten ≠ w := by
    intro call w letter m h hw he
    exact h.ne (by rw [hlower w hw he, hl w hw])
  have h1 := hne hnot (by decide)
  have h2 := hne hand (by decide)
  have h3 := hne hor (by decide)
  simp [BeeFish.isWord, h1, h2, h3]

/-- A separator ends the word. -/
theorem matches_token_word (n : ℕ) {e : Expression} (hl : LowersAscii e.toLower)
    {run : List BString} {m : QueryMatch}
    (h : TokenAt e run m) (h0 : run ≠ []) (hc : c ∈ seperators) : ∃ m' calls,
      m'.result = some true ∧
      Feeds e calls (.word run.flatten) ∧ m.matches_ queryProgram (n + 7) c =
        .ok (m', false, calls) := by
  have hw := h.isWord hl
  obtain ⟨not, and, or, bracket', rfl, -⟩ := h
  have hlen : 1 ≤ run.length := List.length_pos_iff.mpr h0
  have hnone : (.invoke .word (wordAt run) none : QueryMatch).result = none := wordAt_result run
  obtain ⟨w, hrun, hv, hr⟩ := matches_invoke_word_end n run hc
  have hloop : Match.orLoop (Match.matches_ queryProgram (n + 6) · c) [] false
      (.invoke .word (wordAt run) none :: [not, and, or, bracket']) = _ :=
    orLoop_found [] hnone hrun (by simp [Match.result, hr, hlen, hw])
  refine ⟨.or ([] ++ .invoke .word w w.result :: [not, and, or, bracket']) (some 0) (some true),
    [(.word, w)], rfl, ?_, ?_⟩
  · exact feeds_word hv
  · rw [Match.matches_]
    simp [Match.result, hloop, hlen, hw]

theorem eof_token_word (n : ℕ) {e : Expression} (hl : LowersAscii e.toLower) {run : List BString}
    {m : QueryMatch}
    (h : TokenAt e run m) (h0 : run ≠ []) : ∃ m' calls, m'.result = some true ∧
      Feeds e calls (.word run.flatten) ∧ m.eof queryProgram (n + 7) = .ok (m', calls) := by
  have hw := h.isWord hl
  obtain ⟨not, and, or, bracket', rfl, -⟩ := h
  have hlen : 1 ≤ run.length := List.length_pos_iff.mpr h0
  obtain ⟨w, hrun, hv, hr⟩ := eof_word n run
  have hword : (.invoke .word (wordAt run) none : QueryMatch).eof queryProgram (n + 6) =
      .ok (.invoke .word w (some true), [(.word, w)]) := by
    rw [Match.eof]
    simp [wordAt_result, hrun, hr, hlen, hw]
  refine ⟨.or ([] ++ .invoke .word w (some true) :: [not, and, or, bracket']) (some 0)
    (some true), _, rfl,
    feeds_word hv, ?_⟩
  rw [Match.eof]
  simp [Match.result, Match.orEof, hword]

/-- A token that is a bracket. -/
def BracketAt (inner m : QueryMatch) : Prop :=
  ∃ word not and or : QueryMatch, m = .or [word, not, and, or, .invoke .expression inner none]
    none none ∧
    Failed word ∧ Failed not ∧ Failed and ∧ Failed or

/-- A bracket whose parenthesis has been read, with its expression. -/
def bracketAt (e : Expression) (iterator : ℕ) (item : Option QueryMatch) : QueryMatch :=
  .and [.character (some (text "(")) (some true), .loadOnDemand e item none,
    .character (some (text ")")) none] iterator none

theorem matches_bracket_open (n : ℕ) (e : Expression) :
    (.invoke .expression (bracket e) none : QueryMatch).matches_ queryProgram (n + 3) (text "(") =
      .ok (.invoke .expression (bracketAt e 1 none) none, true, []) := by
  unfold bracket bracketAt
  simp [Match.matches_, Match.result, Match.andLoop]

/-- A separator as the first character of a token. -/
theorem matches_token_seperator (n : ℕ) {e : Expression} (hl : LowersAscii e.toLower)
    (hc : c ∈ seperators) :
    ∃ m b calls, (token e).matches_ queryProgram (n + 7) c = .ok (m, b, calls) ∧
      if c = text "(" then BracketAt (bracketAt e 1 none) m ∧ b = true ∧ calls = []
      else if c = text "!" ∨ c = text "+" ∨ c = text "|" then m.result = some true ∧ b = true ∧
        Feeds e calls (if c = text "!" then .not else if c = text "+" then .and else .or)
      else m.result = some false ∧ b = false ∧ calls = [] := by
  obtain ⟨h1, h2, h3⟩ := hl.operator
  have hnp : ∀ c ∈ seperators, ¬ c <+: text "not" ∧ ¬ c <+: text "and" ∧ ¬ c <+: text "or" := by
    decide
  obtain ⟨p1, p2, p3⟩ := hnp c hc
  -- the word fails, and so does an operator with another letter
  obtain ⟨k, hw, -, hk⟩ := matches_invoke_word_end n [] hc
  have hk : k.result = some false := hk
  have hw' : Failed (.invoke .word k k.result) := ⟨.word, k, by rw [hk], hk⟩
  generalize (.invoke .word k k.result : QueryMatch) = w at hw hw'
  have hskip : ∀ {word letter : BString} (call : TokenCall) (before : List QueryMatch),
      e.toLower word = word → word ≠ [] → ¬ c <+: word → c ≠ letter → ∃ m : QueryMatch, Failed m ∧
      ∀ inputs, Match.orLoop (Match.matches_ queryProgram (n + 6) · c) before false
          (operatorAt e.toLower call letter (e.toLower word) none :: inputs) =
        Match.orLoop (Match.matches_ queryProgram (n + 6) · c) (before ++ [m]) false inputs := by
    intro word letter call before hword h0 hp hne
    have h0' : e.toLower word ≠ [] := by rwa [hword]
    have hp' : ¬ e.toLower c <+: e.toLower word := by rwa [hword, hl.seperator hc]
    obtain ⟨m, hrun, hm⟩ :=
      matches_operator_other call (n + 3) hne (Option.some_ne_none true).symm h0' hp'
    exact ⟨m, hm, fun inputs => orLoop_more before (operatorAt_result _) hrun (by simp [hm.result])⟩
  have hletter : ∀ (call : TokenCall) {word : BString} {t : Token} (before : List QueryMatch),
      e.toLower word = word → word ≠ [] → ¬ c <+: word → operatorCall call = some t →
        ∃ (m : QueryMatch) (calls : _),
      Feeds e calls t ∧ ∀ inputs, Match.orLoop (Match.matches_ queryProgram (n + 6) · c)
        before false
          (operatorAt e.toLower call c (e.toLower word) none :: inputs) =
        .ok (before ++ m :: inputs, true, some before.length, calls) := by
    intro call word t before hword h0 hp hcall
    have h0' : e.toLower word ≠ [] := by rwa [hword]
    have hp' : ¬ e.toLower c <+: e.toLower word := by rwa [hword, hl.seperator hc]
    obtain ⟨m, m', hrun, hm⟩ := matches_operator_letter call (n + 3) h0' hp'
    exact ⟨m, _, feeds_operator hcall m', fun inputs =>
      orLoop_found before (operatorAt_result _) hrun hm⟩
  have htoken : token e = .or [.invoke .word (wordAt []) none,
    operatorAt e.toLower .not (text "!") (e.toLower (text "not")) none,
    operatorAt e.toLower .and (text "+") (e.toLower (text "and")) none,
    operatorAt e.toLower .or (text "|") (e.toLower (text "or")) none,
      .invoke .expression (bracket e) none] none none := rfl
  have hword : ∀ inputs, Match.orLoop (Match.matches_ queryProgram (n + 6) · c) [] false
      (.invoke .word (wordAt []) none :: inputs) = Match.orLoop
        (Match.matches_ queryProgram (n + 6) · c) [w] false inputs :=
    fun inputs => orLoop_more [] (wordAt_result []) hw (by simp [hw'.result])
  rw [htoken]
  by_cases hnot : c = text "!"
  · subst hnot
    obtain ⟨m, calls, hf, hloop⟩ := hletter .not [w] h1 (by decide) p1 rfl
    refine ⟨_, _, _, matches_or_found (n + 6) ((hword _).trans (hloop _)), ?_⟩
    rw [if_neg (by decide), if_pos (Or.inl rfl), if_pos rfl]
    exact ⟨rfl, rfl, hf⟩
  obtain ⟨m1, hm1, hloop1⟩ := hskip .not [w] h1 (by decide) p1 hnot
  by_cases hand : c = text "+"
  · subst hand
    obtain ⟨m, calls, hf, hloop⟩ := hletter .and [w, m1] h2 (by decide) p2 rfl
    refine ⟨_, _, _, matches_or_found (n + 6) (((hword _).trans (hloop1 _)).trans (hloop _)), ?_⟩
    rw [if_neg (by decide), if_pos (Or.inr (Or.inl rfl)), if_neg (by decide), if_pos rfl]
    exact ⟨rfl, rfl, hf⟩
  obtain ⟨m2, hm2, hloop2⟩ := hskip .and [w, m1] h2 (by decide) p2 hand
  by_cases hor : c = text "|"
  · subst hor
    obtain ⟨m, calls, hf, hloop⟩ := hletter .or [w, m1, m2] h3 (by decide) p3 rfl
    refine ⟨_, _, _, matches_or_found (n + 6) ((((hword _).trans (hloop1 _)).trans (hloop2 _)).trans
      (hloop _)), ?_⟩
    rw [if_neg (by decide), if_pos (Or.inr (Or.inr rfl)), if_neg (by decide), if_neg (by decide)]
    exact ⟨rfl, rfl, hf⟩
  obtain ⟨m3, hm3, hloop3⟩ := hskip .or [w, m1, m2] h3 (by decide) p3 hor
  have hloop := fun inputs => (((hword _).trans (hloop1 _)).trans (hloop2 _)).trans (hloop3 inputs)
  by_cases hopen : c = text "("
  · subst hopen
    have hbracket : Match.orLoop (Match.matches_ queryProgram (n + 6) · (text "("))
      ([w, m1, m2] ++ [m3]) false
        [.invoke .expression (bracket e) none] = _ := orLoop_more ([w, m1, m2] ++ [m3])
      (show (.invoke .expression (bracket e) none : QueryMatch).result = none from rfl)
      (matches_bracket_open (n + 3) e) (by simp [Match.result, bracketAt])
    refine ⟨_, _, _, matches_or_none (n + 6) ((hloop _).trans hbracket), ?_⟩
    rw [if_pos rfl]
    exact ⟨⟨w, m1, m2, m3, rfl, hw', hm1, hm2, hm3⟩, rfl, rfl⟩
  · obtain ⟨b, hrun, hb⟩ := matches_bracket_other (n + 3) e hopen
    have hbracket : Match.orLoop (Match.matches_ queryProgram (n + 6) · c)
      ([w, m1, m2] ++ [m3]) false
        [.invoke .expression (bracket e) none] = _ := orLoop_more ([w, m1, m2] ++ [m3])
      (show (.invoke .expression (bracket e) none : QueryMatch).result = none from rfl) hrun
      (by simp [hb])
    refine ⟨_, _, _, matches_or_none (n + 6) ((hloop _).trans hbracket), ?_⟩
    rw [if_neg hopen, if_neg (by simp [hnot, hand, hor])]
    exact ⟨rfl, rfl, rfl⟩

end

end BeeFish
