/-
# The matcher of a query

The classes of query/Query.hpp that match the text of a query. A `Token` is
tried as a word, as each operator and as a bracketed expression at the same
time; an operator has succeeded as soon as its last letter comes. `Tokens`
succeeds where the next token fails, if there has been one.

What a token calls is put on the stack of the expression the token belongs to.
The object of an expression also keeps the tokens that have been put there.

Key definitions: `Expression.matcher`, `Expression.parse`.
-/
import BeeFish.Match
import BeeFish.Expression

namespace BeeFish

/-- The `Invoke`s of a token. -/
inductive TokenCall where
  | word
  | not
  | and
  | or
  | expression

/-- The object of an expression, with the tokens it has been fed. -/
structure ExpressionObject where
  expression : Expression
  tokens : List Token
  stack : Items

abbrev QueryMatch := Match Expression ExpressionObject TokenCall

namespace QueryGrammar

def oneOf (characters : List BString) : QueryMatch :=
  .or (characters.map fun c => .character (some c) none) none none

def blanks : List BString := [text " ", text "\t", text "\r", text "\n"]

def seperators : List BString :=
  [text " ", text "\t", text "\r", text "\n", text "+", text "|", text "!", text "(", text ")",
    text "$", text ";"]

def blankspace : QueryMatch := oneOf blanks

def blankspaces : QueryMatch := .repeated blankspace none 0 0 0 none

/-- `Operator`, with its `CIWord` -/
def operator (lower : BString → BString) (word letter : BString) : QueryMatch :=
  .or [.word lower (lower word) none, .character (some letter) none] none none

def and (lower : BString → BString) : QueryMatch := operator lower (text "and") (text "+")

def or (lower : BString → BString) : QueryMatch := operator lower (text "or") (text "|")

def not (lower : BString → BString) : QueryMatch := operator lower (text "not") (text "!")

def seperator : QueryMatch := oneOf seperators

def wordCharacter : QueryMatch := .not seperator none

/-- `Word`; `success()` fails for the words of the operators. -/
def word : QueryMatch :=
  .capture (fun value => !(value == text "and" || value == text "or" || value == text "not")) []
    (.repeated wordCharacter none 1 0 0 none) none

def bracket (e : Expression) : QueryMatch :=
  .and [.character (some (text "(")) none, .loadOnDemand e none none, .character (some (text ")"))
    none] 0 none

def token (e : Expression) : QueryMatch :=
  .or [.invoke .word word none, .invoke .not (not e.toLower) none,
    .invoke .and (and e.toLower) none,
    .invoke .or (or e.toLower) none, .invoke .expression (bracket e) none] none none

def tokenAndBlankspace (e : Expression) : QueryMatch := .and [token e, blankspaces] 0 none

def tokens (e : Expression) : QueryMatch := .repeated (tokenAndBlankspace e) none 1 0 0 none

end QueryGrammar

/-- An expression that is set up. -/
def Expression.matcher (e : Expression) : QueryMatch :=
  .object ⟨e, [], []⟩
    (.and [QueryGrammar.blankspaces, QueryGrammar.tokens e,
      .optional (.character (some (text "$")) none) none] 0 none) none

namespace ExpressionObject

def pushed (object : ExpressionObject) (token : Token) (stack : Except Failure Items) :
    Except Failure ExpressionObject :=
  stack.map fun stack => { object with tokens := object.tokens ++ [token], stack := stack }

/-- What the `Invoke`s of a token call. -/
def onsuccess (call : TokenCall) (m : QueryMatch) (object : ExpressionObject) :
    Except Failure ExpressionObject :=
  match call with
  | .word => object.pushed (.word m.value) (object.expression.wordItem m.value object.stack)
  | .not => object.pushed .not (.ok (Expression.notItem object.stack))
  | .and => object.pushed .and (.ok (Expression.pushBack .and object.stack))
  | .or => object.pushed .or (.ok (Expression.pushBack .or object.stack))
  | .expression =>
    match m with
    | .and [_, .loadOnDemand _ (some (.object inner _ _)) _, _] _ _ =>
      match inner.stack.getLast? with
      | some (.iterable item) =>
        object.pushed (.bracket inner.tokens) (object.expression.expressionItem item object.stack)
      | _ => .error .dereferenced
    | _ => .error .dereferenced

end ExpressionObject

/-- The grammar of queries. -/
def queryProgram : Program Expression ExpressionObject TokenCall Failure where
  createItem parent := parent.createItem.matcher
  onsuccess := ExpressionObject.onsuccess
  success object := object.stack.success

/-- The expression of a query text (`Expression::Expression`), if the parser has
matched. -/
def Expression.parse (fuel : ℕ) (e : Expression) (query : BString) :
    Run Failure ExpressionObject := do
  let parser ← Parser.read queryProgram fuel ⟨e.matcher, none⟩ query
  let parser ← Parser.eof queryProgram fuel parser
  if parser.result = some true then
    match parser.match_ with
    | .object object _ _ => return object
    | _ => .fail .rejected
  else .fail .rejected

end BeeFish
