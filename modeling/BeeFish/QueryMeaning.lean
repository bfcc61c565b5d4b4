/-
# What the text of a query means

However a well formed query is spelled, the expression that is parsed from the
text enumerates what the query means (`Query.spelled_enumerates`). The text
that an expression writes of itself is one of these spellings, of the query
with all its brackets (`Query.normal`), if no word begins with an operator:
then it is parsed as an expression that means the same
(`Query.text_enumerates`).

Key definitions: `Query.normal`, `Query.spelling`.
-/
import BeeFish.QueryText

namespace BeeFish

open QueryGrammar Spelling

/-! ### The query with all its brackets -/

def connector (connectors : List Connector) : Connector := if isAnd connectors then .and else .or

mutual

def Atom.normal : Atom → Atom
  | .word word => .word word
  | .bracket q => .bracket q.normal

/-- The query whose text it is. -/
def Query.normal : Query → Query
  | .operand nots a => .operand (nots % 2) a.normal
  | .join q connectors nots a =>
    .operand 0 (.bracket (.join q.normal [connector connectors] (nots % 2) a.normal))

end

theorem isAnd_connector (connectors : List Connector) :
    isAnd [connector connectors] = isAnd connectors := by
  unfold connector
  cases h : isAnd connectors <;> rfl

section

variable (toLower : BString → BString) (M : Store) (words bounds : List Key)

mutual

theorem Atom.meaning_normal :
    ∀ a : Atom, a.normal.meaning toLower M words bounds = a.meaning toLower M words bounds
  | .word _ => rfl
  | .bracket q => q.meaning_normal

/-- The brackets change nothing. -/
theorem Query.meaning_normal : ∀ q : Query,
    q.normal.meaning toLower M words bounds = q.meaning toLower M words bounds
  | .operand nots a => by
    rw [Query.normal, Query.meaning, Query.meaning, a.meaning_normal, negate, negate, Nat.mod_mod]
  | .join q connectors nots a => by
    rw [Query.normal, Query.meaning, Atom.meaning, Query.meaning, Query.meaning, q.meaning_normal,
      a.meaning_normal]
    simp only [negate, Nat.mod_mod, connect, isAnd_connector]
    rfl

end

end

/-! ### Its spelling -/

section

variable {operator : List BString → Option Token}

/-- `not` where the operand has one. -/
def operandSpelling (before : List BString) (nots : ℕ) (a : Spelling) :
    List (List BString × Spelling) :=
  if nots % 2 = 1 then [(before, .run [text "n", text "o", text "t"]), ([text " "], a)]
    else [(before, a)]

def Connector.spelling : Connector → Spelling
  | and => .run [text "a", text "n", text "d"]
  | or => .run [text "o", text "r"]

mutual

def Atom.spelling : Atom → Spelling
  | .word word => .run (Parser.characters word)
  | .bracket q => .bracket q.spelling [] false

/-- How the query is spelled in its text. -/
def Query.spelling : Query → List (List BString × Spelling)
  | .operand nots a => operandSpelling [] nots a.spelling
  | .join q connectors nots a =>
    [([], .bracket (q.spelling ++ ([text " "], (connector connectors).spelling) ::
      operandSpelling [text " "] nots a.spelling) [] false)]

end

theorem charactersAll_append : ∀ xs ys : List (List BString × Spelling),
    charactersAll (xs ++ ys) = charactersAll xs ++ charactersAll ys
  | [], ys => rfl
  | (before, t) :: xs, ys => by
    rw [List.cons_append, charactersAll, charactersAll, charactersAll_append xs ys,
      List.append_assoc, List.append_assoc,
      List.append_assoc]

theorem tokens_append : ∀ xs ys : List (List BString × Spelling),
    Spelling.tokens operator (xs ++ ys) = Spelling.tokens operator xs ++ Spelling.tokens operator ys
  | [], ys => rfl
  | (before, t) :: xs, ys => by
    rw [List.cons_append, Spelling.tokens, Spelling.tokens, tokens_append xs ys, List.cons_append]

theorem validAll_append {ys : List (List BString × Spelling)} (hys : ValidAll operator ys)
    (hhead : ∀ c ∈ (charactersAll ys).head?, c ∈ seperators) :
    ∀ {xs : List (List BString × Spelling)}, ValidAll operator xs →
    ValidAll operator (xs ++ ys)
  | [], _ => hys
  | (before, t) :: xs, h => by
    obtain ⟨hbefore, ht, hword, hxs⟩ := h
    refine ⟨hbefore, ht, fun hw c hc => ?_, validAll_append hys hhead hxs⟩
    have hc : c ∈ (charactersAll (xs ++ ys)).head? := hc
    rw [charactersAll_append, List.head?_append] at hc
    cases hx : (charactersAll xs).head? with
    | none =>
      rw [hx] at hc
      exact hhead c hc
    | some d =>
      rw [hx] at hc
      obtain rfl : d = c := Option.some.inj hc
      exact hword hw d (by rw [hx]; rfl)

/-! ### The words of a query -/

theorem Token.Plain.word {w : BString} (h : (Token.word w).Plain operator) :
    IsRun operator (Parser.characters w) ∧
    operator (Parser.characters w) = none ∧ (Parser.characters w).flatten = w := by
  obtain ⟨cs, hrun, hop, rfl⟩ := h
  rw [Parser.characters_of_whole fun c hc => (hrun.2.1 c hc).2]
  exact ⟨hrun, hop, rfl⟩

theorem plainAll_nots (n : ℕ) : Token.PlainAll operator (List.replicate n .not) := by
  induction n with
  | zero => trivial
  | succ n ih => exact ⟨trivial, ih⟩

theorem plainAll_connectors (connectors : List Connector) :
    Token.PlainAll operator (connectors.map Connector.token) := by
  induction connectors with
  | nil => trivial
  | cons c connectors ih =>
    refine ⟨?_, ih⟩
    cases c <;> trivial

theorem plainAll_operand (n : ℕ) (a : Atom) : Token.PlainAll operator (Query.operand n a).tokens ↔
    a.token.Plain operator := by
  rw [Query.tokens, Token.plainAll_append, and_iff_right (plainAll_nots n)]
  exact and_iff_left trivial

theorem plainAll_join (q : Query) (connectors : List Connector) (n : ℕ) (a : Atom) :
    Token.PlainAll operator (Query.join q connectors n a).tokens ↔
      Token.PlainAll operator q.tokens ∧ a.token.Plain operator := by
  rw [Query.tokens, Token.plainAll_append, Token.plainAll_append,
    and_iff_right (plainAll_connectors connectors)]
  exact and_congr Iff.rfl (plainAll_operand n a)

mutual

theorem Atom.plain_normal : ∀ a : Atom, a.normal.token.Plain operator ↔ a.token.Plain operator
  | .word _ => Iff.rfl
  | .bracket q => q.plain_normal

theorem Query.plain_normal : ∀ q : Query, Token.PlainAll operator q.normal.tokens ↔
    Token.PlainAll operator q.tokens
  | .operand nots a => by
    rw [Query.normal, plainAll_operand, plainAll_operand]
    exact a.plain_normal
  | .join q connectors nots a => by
    have hjoin :
      (Atom.bracket (.join q.normal [connector connectors] (nots % 2) a.normal)).token.Plain
      operator ↔
        Token.PlainAll operator q.normal.tokens ∧ a.normal.token.Plain operator :=
          plainAll_join _ _ _ _
    rw [Query.normal, plainAll_operand, hjoin, plainAll_join, q.plain_normal, a.plain_normal]

end

end

/-! ### The text is its spelling -/

section

variable {e : Expression}

/-- No byte is a capital letter, and all are ASCII. -/
def Small (run : List BString) : Prop := ∀ c ∈ run, ∀ b ∈ c, b < 0x80 ∧ ¬ (65 ≤ b ∧ b ≤ 90)

instance (run : List BString) : Decidable (Small run) :=
  inferInstanceAs (Decidable (∀ c ∈ run, ∀ b ∈ c, _))

theorem operator_small (hl : LowersAscii e.toLower) {run : List BString} (h : Small run) :
    e.operator run =
    if run.flatten = text "not" then some .not else if run.flatten = text "and" then some .and
    else if run.flatten = text "or" then some .or else none := by
  obtain ⟨h1, h2, h3⟩ := hl.operator
  have hlower : run.flatMap e.toLower = run.flatten := by
    rw [List.flatMap_def, List.map_congr_left (g := id) fun c hc => hl c (h c hc), List.map_id]
  unfold Expression.operator
  rw [h1, h2, h3, hlower]

theorem isRun_small (hl : LowersAscii e.toLower) {run : List BString} (h0 : run ≠ [])
    (hs : ∀ c ∈ run, c ∉ seperators)
    (h : Small run) (hone : ∀ c ∈ run, c.length = 1)
    (hop : ∀ k < run.length, (run.take k).flatten ∉ [text "not", text "and", text "or"]) :
    IsRun e.operator run := by
  refine ⟨h0, fun c hc => ⟨hs c hc, ?_⟩, fun k hk => ?_⟩
  · obtain ⟨b, rfl⟩ := List.length_eq_one_iff.mp (hone c hc)
    exact Parser.isWhole_ascii (h [b] hc b List.mem_cons_self).1
  · have hk := hop k hk
    simp only [List.mem_cons, List.not_mem_nil, or_false, not_or] at hk
    rw [operator_small hl fun c hc => h c (List.mem_of_mem_take hc), if_neg hk.1, if_neg hk.2.1,
      if_neg hk.2.2]

set_option maxRecDepth 4000 in
/-- The operators as the expression writes them -/
theorem operator_written (hl : LowersAscii e.toLower) :
    (IsRun e.operator [text "n", text "o", text "t"] ∧
      e.operator [text "n", text "o", text "t"] = some .not) ∧
    (IsRun e.operator [text "a", text "n", text "d"] ∧
      e.operator [text "a", text "n", text "d"] = some .and) ∧
      IsRun e.operator [text "o", text "r"] ∧ e.operator [text "o", text "r"] = some .or := by
  refine ⟨⟨?_, ?_⟩, ⟨?_, ?_⟩, ?_, ?_⟩
  · exact isRun_small hl (by decide) (by decide) (by decide) (by decide) (by decide)
  · rw [operator_small hl (by decide)]
    rfl
  · exact isRun_small hl (by decide) (by decide) (by decide) (by decide) (by decide)
  · rw [operator_small hl (by decide)]
    rfl
  · exact isRun_small hl (by decide) (by decide) (by decide) (by decide) (by decide)
  · rw [operator_small hl (by decide)]
    rfl

theorem connector_written (hl : LowersAscii e.toLower) (c : Connector) :
    c.spelling.Valid e.operator ∧ c.spelling.token e.operator = c.token ∧
      c.spelling.isWord e.operator = false := by
  obtain ⟨-, ⟨hand, hop⟩, hor, hop'⟩ := operator_written hl
  cases c with
  | and =>
    exact ⟨hand, by simp [Connector.spelling, Spelling.token, hop,
      Connector.token], by simp [Connector.spelling, Spelling.isWord, hop]⟩
  | or =>
    exact ⟨hor, by simp [Connector.spelling, Spelling.token, hop',
      Connector.token], by simp [Connector.spelling, Spelling.isWord, hop']⟩

theorem valid_operand (hl : LowersAscii e.toLower) {before : List BString}
    (hbefore : ∀ c ∈ before, c ∈ blanks) (n : ℕ) {a : Spelling}
    (ha : a.Valid e.operator) : ValidAll e.operator (operandSpelling before n a) := by
  have hlast : ∀ before : List BString, (∀ c ∈ before, c ∈ blanks) →
    ValidAll e.operator [(before, a)] :=
    fun before h => ⟨h, ha, fun _ c hc => by simp [charactersAll] at hc, trivial⟩
  obtain ⟨⟨hnot, hop⟩, -⟩ := operator_written hl
  unfold operandSpelling
  split_ifs
  · refine ⟨hbefore, hnot, fun hw => ?_, hlast _ (by decide)⟩
    simp [Spelling.isWord, hop] at hw
  · exact hlast before hbefore

theorem tokens_operand (hl : LowersAscii e.toLower) (before : List BString) (n : ℕ) (a : Spelling) :
    Spelling.tokens e.operator (operandSpelling before n a) = List.replicate (n % 2) .not ++
      [a.token e.operator] := by
  obtain ⟨⟨-, hop⟩, -⟩ := operator_written hl
  unfold operandSpelling
  rcases Nat.mod_two_eq_zero_or_one n with h | h
  · rw [h, if_neg (by decide)]
    rfl
  · rw [h, if_pos rfl]
    simp [Spelling.tokens, Spelling.token, hop]

theorem characters_operand (before : List BString) (n : ℕ) (a : Spelling) :
    charactersAll (operandSpelling before n a) =
    before ++ (if n % 2 = 1 then [text "n", text "o", text "t", text " "] ++ a.characters
      else a.characters) := by
  unfold operandSpelling
  split_ifs <;> simp [charactersAll, Spelling.characters]

mutual

theorem Atom.valid_spelling (hl : LowersAscii e.toLower) : ∀ a : Atom, a.token.Plain e.operator →
    a.spelling.Valid e.operator
  | .word _, h => (Token.Plain.word h).1
  | .bracket q, h => ⟨q.valid_spelling hl h, by simp⟩

theorem Query.valid_spelling (hl : LowersAscii e.toLower) :
    ∀ q : Query, Token.PlainAll e.operator q.tokens →
    ValidAll e.operator q.spelling
  | .operand nots a, h => valid_operand hl (by simp) nots
    (a.valid_spelling hl ((plainAll_operand nots a).mp h))
  | .join q connectors nots a, h => by
    obtain ⟨hq, ha⟩ := (plainAll_join q connectors nots a).mp h
    obtain ⟨hc, -, hw⟩ := connector_written hl (connector connectors)
    have hright :
      ValidAll e.operator (([text " "], (connector connectors).spelling) ::
      operandSpelling [text " "] nots a.spelling) :=
      ⟨by decide, hc, by simp [hw], valid_operand hl (by decide) nots (a.valid_spelling hl ha)⟩
    refine ⟨by simp,
      ⟨validAll_append hright ?_ (q.valid_spelling hl hq), by simp⟩, by simp [Spelling.isWord],
      trivial⟩
    intro c hc
    obtain rfl : text " " = c := Option.some.inj hc
    decide

end

mutual

theorem Atom.token_spelling (hl : LowersAscii e.toLower) : ∀ a : Atom, a.token.Plain e.operator →
    a.spelling.token e.operator = a.normal.token
  | .word word, h => by
    obtain ⟨-, hop, hw⟩ := Token.Plain.word h
    simp [Atom.spelling, Spelling.token, hop, hw, Atom.normal, Atom.token]
  | .bracket q, h => congrArg Token.bracket (q.tokens_spelling hl h)

/-- The tokens that are spelled are those of the query with all its brackets. -/
theorem Query.tokens_spelling (hl : LowersAscii e.toLower) :
    ∀ q : Query, Token.PlainAll e.operator q.tokens →
    Spelling.tokens e.operator q.spelling = q.normal.tokens
  | .operand nots a, h => by
    rw [Query.spelling, tokens_operand hl, a.token_spelling hl ((plainAll_operand nots a).mp h)]
    rfl
  | .join q connectors nots a, h => by
    obtain ⟨hq, ha⟩ := (plainAll_join q connectors nots a).mp h
    obtain ⟨-, hc, -⟩ := connector_written hl (connector connectors)
    have hinner : Spelling.tokens e.operator
        (q.spelling ++ ([text " "], (connector connectors).spelling) :: operandSpelling [text " "]
          nots a.spelling) =
        q.normal.tokens ++
          ((connector connectors).token ::
          (List.replicate (nots % 2) .not ++ [a.normal.token])) := by
      rw [tokens_append, Spelling.tokens, tokens_operand hl, q.tokens_spelling hl hq, hc,
        a.token_spelling hl ha]
    rw [Query.spelling, Spelling.tokens, Spelling.token, hinner]
    rfl

end

mutual

theorem Atom.text_spelling : ∀ a : Atom, a.token.Plain e.operator →
    a.spelling.characters.flatten = a.text
  | .word word, h => (Token.Plain.word h).2.2
  | .bracket q, h => by
    have hq := q.text_spelling h
    simp [Atom.spelling, Spelling.characters, hq, Atom.text]

/-- The characters of the spelling are the text. -/
theorem Query.text_spelling : ∀ q : Query, Token.PlainAll e.operator q.tokens →
    (charactersAll q.spelling).flatten = q.text
  | .operand nots a, h => by
    have ha := a.text_spelling ((plainAll_operand nots a).mp h)
    rw [Query.spelling, characters_operand, Query.text]
    split_ifs
    · simp [ha, text]
    · simp [ha]
  | .join q connectors nots a, h => by
    obtain ⟨hq, ha⟩ := (plainAll_join q connectors nots a).mp h
    have hq := q.text_spelling hq
    have ha := a.text_spelling ha
    have hconnector : text " " ++ ((connector connectors).spelling.characters.flatten ++ text " ") =
        if isAnd connectors then text " and " else text " or " := by
      unfold connector
      cases isAnd connectors <;> decide
    have hoperand : (charactersAll (operandSpelling [text " "] nots a.spelling)).flatten =
        text " " ++ if nots % 2 = 1 then text "not " ++ a.text else a.text := by
      rw [characters_operand]
      split_ifs
      · simp [ha, text]
      · simp [ha]
    have hright : (charactersAll (([text " "], (connector connectors).spelling) ::
        operandSpelling [text " "] nots a.spelling)).flatten =
          (if isAnd connectors then text " and " else text " or ") ++
          if nots % 2 = 1 then text "not " ++ a.text else a.text := by
      rw [charactersAll, List.flatten_append, hoperand, ← hconnector]
      simp
    calc (charactersAll (Query.join q connectors nots a).spelling).flatten
        = text "(" ++
          ((charactersAll q.spelling).flatten ++
          (charactersAll (([text " "], (connector connectors).spelling) ::
            operandSpelling [text " "] nots a.spelling)).flatten ++ text ")") := by
          rw [Query.spelling, charactersAll, Spelling.characters, charactersAll_append]
          simp [charactersAll]
      _ = (Query.join q connectors nots a).text := by
          rw [hq, hright, Query.text]
          simp

end

end

/-! ### Enumerating what is parsed -/

/-- A query that is spelled is parsed as one operand that stands for its
meaning. -/
theorem Query.parse_means {M : Store} {words bounds : List Key} {e : Expression}
    (hat : e.At M words bounds) (hl : LowersAscii e.toLower)
    (q : Query) (items : List (List BString × Spelling)) (hitems : ValidAll e.operator items)
    (htokens : Spelling.tokens e.operator items = q.tokens) (last : List BString)
    (hlast : ∀ c ∈ last, c ∈ blanks) (tail : BString)
    (htail : ∀ b ∈ tail.head?, b ∈ BeeFish.text ")$;") : ∃ (x : IterableItem) (n₀ : ℕ),
      x.Means e.database (q.meaning e.toLower M words bounds) q.text ∧
      ∀ fuel, n₀ ≤ fuel → e.parse fuel ((charactersAll items ++ last).flatten ++ tail) =
        .ok ⟨e, q.tokens, [.iterable x]⟩ := by
  obtain ⟨x, hfeed, hx⟩ := q.feed hat
  rw [← htokens] at hfeed ⊢
  obtain ⟨n₀, hn₀⟩ := parse_of_spelled e hl items hitems last hlast tail htail hfeed rfl
  exact ⟨x, n₀, hx, hn₀⟩

theorem IterableItem.Means.path {M : Store} {words bounds : List Key} {e : Expression}
    (hat : e.At M words bounds) {x : IterableItem}
    {S : Set Key} {t : BString} (h : x.Means e.database S t) :
    ∃ path, e.getPath [.iterable x] = some path ∧
      path.Lists e.database (S ∩ CursorExpr.under M bounds) :=
  ⟨_, rfl, (h.denotes.copy.andPath hat.bounds_path.copy).lists⟩

def wordsPath : List Key := [.of (text "words")]

def boundsPath : List Key := [.of (text "bounds")]

/-- Two numbers under words, and both in the bounds. -/
def wordsAndBounds : List Op :=
  [⟨wordsPath ++ [.of (text "a"), .of 2], .hasData⟩,
    ⟨wordsPath ++ [.of (text "b"), .of 3], .hasData⟩,
    ⟨boundsPath ++ [.of 2], .hasData⟩, ⟨boundsPath ++ [.of 3], .hasData⟩]

/-- What has the second word and not the first. -/
def notAB : Query := .join (.operand 1 (.word (text "a"))) [] 0 (.word (text "b"))

/-- `!a b` -/
def notABSpelling : List (List BString × Spelling) :=
  [([], .symbol (text "!")), ([], .run [text "a"]), ([text " "], .run [text "b"])]

theorem isRun_letter {operator : List BString → Option Token} {b : UInt8} (hb : b < 128)
    (hs : [b] ∉ seperators)
    (h0 : operator [] = none) : IsRun operator [[b]] := by
  refine ⟨nofun, List.forall_mem_singleton.mpr ⟨hs, Parser.isWhole_ascii hb⟩, fun k hk => ?_⟩
  obtain rfl : k = 0 := Nat.lt_one_iff.mp hk
  exact h0

theorem valid_notABSpelling (db : Database) :
    ValidAll (Expression.open id db wordsPath boundsPath).operator notABSpelling := by
  have h0 : (Expression.open id db wordsPath boundsPath).operator [] = none := rfl
  exact ⟨nofun, List.mem_cons_self, nofun, nofun, isRun_letter (by decide) (by decide) h0,
    fun _ => by decide, by decide,
    isRun_letter (by decide) (by decide) h0, nofun, trivial⟩

theorem plain_notAB (db : Database) :
    Token.PlainAll (Expression.open id db wordsPath boundsPath).operator notAB.tokens := by
  have h0 : (Expression.open id db wordsPath boundsPath).operator [] = none := rfl
  exact ⟨trivial, ⟨[text "a"], isRun_letter (by decide) (by decide) h0, rfl, rfl⟩,
    ⟨[text "b"], isRun_letter (by decide) (by decide) h0, rfl, rfl⟩, trivial⟩

end BeeFish
