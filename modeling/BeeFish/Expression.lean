/-
# Query expressions

An `Expression` (query/Query.hpp) is built while its tokens arrive. Its stack
holds operands, each a cursor with its text, and the operators that wait for
an operand; `push_back` of an operand takes the operator and the operand
before it from the stack and pushes the cursor of both. A bracketed expression
has a stack of its own and must end with one operand.

The source casts what it takes from the stack to an operand unseen. Here this
fails (`Failure.dereferenced`) where that is an operator or missing, and
`feedTokens_dereferences` says for which tokens that is: those with an
operand after a connector that stands in a wrong place (`Misplaced`), before
any operand or right after a `not` that still waits for its operand.

Key definitions: `Token`, `feedTokens`, `safe`.
-/
import BeeFish.QueryPath

namespace BeeFish

/-! ### The stack -/

structure IterableItem where
  iterable : Cursor
  text : BString

inductive Item where
  | and
  | or
  | not
  | iterable (item : IterableItem)

/-- The stack, its end first. -/
abbrev Items := List Item

inductive Failure where
  /-- The expression does not match. -/
  | rejected
  /-- What is used as an operand is none. -/
  | dereferenced
  deriving DecidableEq

/-- What an expression is made with; `toLower` is the lower case of a string. -/
structure Expression where
  toLower : BString → BString
  database : Database
  words : Path
  bounds : Path

namespace Item

def isConnector : Item → Bool
  | and => true
  | or => true
  | _ => false

/-- `Item::write` -/
def write : Item → BString
  | and => BeeFish.text "and"
  | or => BeeFish.text "or"
  | not => []
  | iterable item => item.text

end Item

/-- `Expression::write` -/
def Items.write (stack : Items) : BString := stack.reverse.flatMap Item.write

/-- `Expression::success` -/
def Items.success : Items → Bool
  | [.iterable _] => true
  | _ => false

namespace Expression

/-- `Expression::Expression` -/
def new (toLower : BString → BString) (database : Database) (words bounds : Path) : Expression :=
  ⟨toLower, database, words.copy, bounds.copy⟩

/-- `LoadOnDemandExpression::createItem` -/
def createItem (parent : Expression) : Expression :=
  new parent.toLower parent.database parent.words parent.bounds

/-- `Expression::push_back` of an operator -/
def pushBack (item : Item) : Items → Items
  | top :: stack => if item.isConnector && top.isConnector then item :: stack
    else item :: top :: stack
  | [] => [item]

/-- `NotItem::NotItem` -/
def notItem : Items → Items
  | .not :: stack => stack
  | stack => pushBack .not stack

/-- Both operands as one, if the left one is an operand. -/
def join (isAnd : Bool) (left : Item) (right : IterableItem) (stack : Items) :
    Except Failure Items :=
  match left with
  | .iterable left =>
    if isAnd then
      .ok (.iterable ⟨.andPath left.iterable.copy right.iterable.copy,
        text "(" ++ left.text ++ text " and " ++ right.text ++ text ")"⟩ :: stack)
    else
      .ok (.iterable ⟨.orPath left.iterable.copy right.iterable.copy 0 0,
        text "(" ++ left.text ++ text " or " ++ right.text ++ text ")"⟩ :: stack)
  | _ => .error .dereferenced

/-- `Expression::push_back` of an operand, once a not has been taken from the
stack. Without an operator on a longer stack there is no left operand. -/
def pushBackLeft (right : IterableItem) : Items → Except Failure Items
  | [] => .ok [.iterable right]
  | [left] => join true left right []
  | .and :: left :: stack => join true left right stack
  | .or :: left :: stack => join false left right stack
  | _ => .error .dereferenced

/-- `Expression::push_back` of an operand -/
def pushBackIterable (e : Expression) (right : IterableItem) : Items → Except Failure Items
  | .not :: stack => pushBackLeft ⟨.notPath right.iterable.copy e.bounds.copy .empty 0,
    text "not " ++ right.text⟩ stack
  | stack => pushBackLeft right stack

/-- `WordItem::WordItem` -/
def wordItem (e : Expression) (word : BString) : Items → Except Failure Items :=
  pushBackIterable e ⟨.newWordPath e.toLower e.database e.words word, word⟩

/-- `ExpressionItem::ExpressionItem` -/
def expressionItem (e : Expression) (item : IterableItem) : Items → Except Failure Items :=
  pushBackIterable e ⟨item.iterable, text "(" ++ item.text ++ text ")"⟩

end Expression

/-! ### Tokens -/

inductive Token where
  | word (word : BString)
  | and
  | or
  | not
  | bracket (tokens : List Token)

open Expression

mutual

/-- One token fed to the expression. -/
def Token.feed (e : Expression) (stack : Items) : Token → Except Failure Items
  | .word word => wordItem e word stack
  | .and => .ok (pushBack .and stack)
  | .or => .ok (pushBack .or stack)
  | .not => .ok (notItem stack)
  | .bracket tokens =>
    match feedTokens e.createItem [] tokens with
    | .ok [.iterable item] => expressionItem e item stack
    | .ok _ => .error .rejected
    | .error failure => .error failure

/-- The tokens fed one after the other. -/
def feedTokens (e : Expression) (stack : Items) : List Token → Except Failure Items
  | [] => .ok stack
  | t :: ts =>
    match t.feed e stack with
    | .ok stack => feedTokens e stack ts
    | .error failure => .error failure

end

/-! ### Misplaced connectors

Tokens that have been read stand in a list with the last one first. -/

namespace Token

def isConnector : Token → Bool
  | and => true
  | or => true
  | _ => false

def isOperand : Token → Bool
  | word _ => true
  | bracket _ => true
  | _ => false

end Token

/-- A `not` waits for its operand: an odd number of them stands last. -/
def oddNots : List Token → Bool
  | .not :: rev => !oddNots rev
  | _ => false

/-- A connector after these tokens has no left operand. -/
def misplaced (rev : List Token) : Bool := oddNots rev || !rev.any Token.isOperand

/-- No connector is misplaced. -/
def wellPlaced : List Token → Bool
  | [] => true
  | t :: rev => !(t.isConnector && misplaced rev) && wellPlaced rev

/-- The last token that is not a `not`. -/
def lastToken : List Token → Option Token
  | .not :: rev => lastToken rev
  | t :: _ => some t
  | [] => none

/-- An operand stands last. -/
def endsInOperand (rev : List Token) : Bool := !oddNots rev && (lastToken rev).any Token.isOperand

mutual

/-- The token is matched: if it is a bracket, its expression succeeds. -/
def Token.complete : Token → Bool
  | .bracket ts => allComplete ts && (wellPlaced ts.reverse && endsInOperand ts.reverse)
  | _ => true

def allComplete : List Token → Bool
  | [] => true
  | t :: ts => t.complete && allComplete ts

end

mutual

/-- The same of the tokens in a bracket. -/
def Token.safe : Token → Bool
  | .bracket ts => safeAfter [] ts
  | _ => true

/-- After the tokens of `rev`, no operand that is reached comes after a
misplaced connector. Reading ends at a bracket that does not match. -/
def safeAfter (rev : List Token) : List Token → Bool
  | [] => true
  | t :: ts =>
    t.safe && (!t.complete || (!t.isOperand || wellPlaced rev) && safeAfter (t :: rev) ts)

end

/-- No operand that is reached comes after a misplaced connector, in the tokens
and in each bracket. -/
def safe (ts : List Token) : Bool := safeAfter [] ts

/-! ### The stack after some tokens -/

/-- The stack below a waiting `not`, after the last token that is no `not`. -/
inductive Base : Option Token → Items → Prop
  | empty : Base none []
  | operand {t : Token} (x : IterableItem) (ht : t.isOperand = true) : Base (some t) [.iterable x]
  | connector {t : Token} {c : Item} (x : IterableItem) (ht : t.isOperand = false)
      (hc : c.isConnector = true) :
    Base (some t) [c, .iterable x]

/-- The stack with a `not` that waits. -/
def waiting (odd : Bool) (base : Items) : Items := if odd then .not :: base else base

/-- The stack of a misplaced connector: nothing or a `not` stands below it. -/
def Doomed (stack : Items) : Prop :=
  ∃ odd c rest, c.isConnector = true ∧ (rest = [] ∨ ∃ s, rest = .not :: s) ∧
    stack = waiting odd (c :: rest)

structure StackAfter (rev : List Token) (stack : Items) : Prop where
  base : wellPlaced rev = true → ∃ base, Base (lastToken rev) base ∧
    stack = waiting (oddNots rev) base
  doomed : wellPlaced rev = false → Doomed stack

theorem stackAfter_nil : StackAfter [] [] where
  base _ := ⟨[], .empty, rfl⟩
  doomed h := by cases h

/-- Well placed tokens that end in something have an operand. -/
theorem any_isOperand_of_lastToken : ∀ {rev : List Token} {t : Token}, wellPlaced rev = true →
    lastToken rev = some t → rev.any Token.isOperand = true
  | .not :: rev, t, hw, ht => by
    simp only [wellPlaced, Bool.and_eq_true] at hw
    simpa [Token.isOperand] using any_isOperand_of_lastToken hw.2 ht
  | .word w :: rev, t, _, _ => rfl
  | .bracket ts :: rev, t, _, _ => rfl
  | .and :: rev, t, hw, _ => by
    simp [wellPlaced, misplaced, Token.isConnector] at hw
    simp [hw.1.2]
  | .or :: rev, t, hw, _ => by
    simp [wellPlaced, misplaced, Token.isConnector] at hw
    simp [hw.1.2]

theorem notItem_base {o : Option Token} {base : Items} (h : Base o base) :
    notItem base = .not :: base := by
  cases h with
  | empty => rfl
  | operand x ht => rfl
  | connector x ht hc =>
    rename_i c
    cases c <;> first | rfl | cases hc

theorem notItem_waiting {odd : Bool} {s : Items} (h : notItem s = .not :: s) :
    notItem (waiting odd s) = waiting (!odd) s := by
  cases odd
  · exact h
  · rfl

theorem StackAfter.not {rev : List Token} {stack : Items} (h : StackAfter rev stack) :
    StackAfter (.not :: rev) (notItem stack) where
  base hw := by
    obtain ⟨base, hb, rfl⟩ := h.base (by simpa [wellPlaced, Token.isConnector] using hw)
    exact ⟨base, hb, notItem_waiting (notItem_base hb)⟩
  doomed hw := by
    obtain ⟨odd, c, rest, hc, hr, rfl⟩ :=
      h.doomed (by simpa [wellPlaced, Token.isConnector] using hw)
    refine ⟨!odd, c, rest, hc, hr, notItem_waiting ?_⟩
    cases c <;> first | rfl | cases hc

theorem any_isOperand_of_none : ∀ {rev : List Token}, lastToken rev = none →
    rev.any Token.isOperand = false
  | [], _ => rfl
  | .not :: rev, h => by
    have hrev : rev.any Token.isOperand = false := any_isOperand_of_none h
    simpa [Token.isOperand] using hrev

theorem lastToken_connector {t : Token} (ht : t.isConnector = true) (rev : List Token) :
    lastToken (t :: rev) = some t ∧ oddNots (t :: rev) = false ∧ t.isOperand = false := by
  cases t <;> first | exact ⟨rfl, rfl, rfl⟩ | cases ht

theorem lastToken_operand {t : Token} (ht : t.isOperand = true) (rev : List Token) :
    lastToken (t :: rev) = some t ∧ oddNots (t :: rev) = false ∧ t.isConnector = false := by
  cases t <;> first | exact ⟨rfl, rfl, rfl⟩ | cases ht

/-- A connector takes the place of the one on top, and else is pushed. -/
theorem pushBack_connector {c : Item} (hc : c.isConnector = true) (top : Item) (s : Items) :
    pushBack c (top :: s) = if top.isConnector then c :: s else c :: top :: s := by
  simp [pushBack, hc]

theorem Doomed.connector {stack : Items} {c : Item} (h : Doomed stack) (hc : c.isConnector = true) :
    Doomed (pushBack c stack) := by
  obtain ⟨odd, c', rest, hc', hr, rfl⟩ := h
  cases odd with
  | true => exact ⟨false, c, .not :: c' :: rest, hc, Or.inr ⟨_, rfl⟩, pushBack_connector hc _ _⟩
  | false =>
    refine ⟨false, c, rest, hc, hr, ?_⟩
    rw [waiting, if_neg (by simp), pushBack_connector hc, if_pos hc']
    rfl

theorem StackAfter.connector {rev : List Token} {stack : Items} (h : StackAfter rev stack)
    {t : Token} {c : Item}
    (ht : t.isConnector = true) (hc : c.isConnector = true) :
    StackAfter (t :: rev) (pushBack c stack) where
  base hw := by
    obtain ⟨hlast, hodd', hop⟩ := lastToken_connector ht rev
    simp only [wellPlaced, ht, Bool.true_and, Bool.and_eq_true, Bool.not_eq_true', misplaced,
      Bool.or_eq_false_iff,
      Bool.not_eq_false'] at hw
    obtain ⟨⟨hodd, hany⟩, hw⟩ := hw
    obtain ⟨base, hb, rfl⟩ := h.base hw
    rw [hlast, hodd', hodd]
    generalize hl : lastToken rev = o at hb
    cases hb with
    | empty => simp [any_isOperand_of_none hl] at hany
    | operand x _ => exact ⟨[c, .iterable x], .connector x hop hc, pushBack_connector hc _ _⟩
    | connector x _ hc' =>
      refine ⟨[c, .iterable x], .connector x hop hc, ?_⟩
      rw [waiting, if_neg (by simp), pushBack_connector hc, if_pos hc']
      rfl
  doomed hw := by
    by_cases hw' : wellPlaced rev = true
    · obtain ⟨base, hb, rfl⟩ := h.base hw'
      by_cases hodd : oddNots rev = true
      · rw [hodd]
        exact ⟨false, c, .not :: base, hc, Or.inr ⟨_, rfl⟩, pushBack_connector hc _ _⟩
      · have hany : rev.any Token.isOperand = false := by
          simpa [wellPlaced, ht, misplaced, hodd, hw'] using hw
        generalize hl : lastToken rev = o at hb
        cases hb with
        | empty => exact ⟨false, c, [], hc, Or.inl rfl, by simp [waiting, hodd, pushBack]⟩
        | operand _ _ => simp [any_isOperand_of_lastToken hw' hl] at hany
        | connector _ _ _ => simp [any_isOperand_of_lastToken hw' hl] at hany
    · exact (h.doomed (by simpa using hw')).connector hc

/-! ### An operand arrives -/

theorem pushBackLeft_base {o : Option Token} {base : Items} (h : Base o base)
    (right : IterableItem) :
    ∃ x, pushBackLeft right base = .ok [.iterable x] := by
  cases h with
  | empty => exact ⟨right, rfl⟩
  | operand x ht => exact ⟨_, rfl⟩
  | connector x ht hc =>
    rename_i c
    cases c <;> first | exact ⟨_, rfl⟩ | cases hc

/-- A connector in a wrong place has an operator, or nothing, as its left
operand. -/
theorem pushBackLeft_doomed {c : Item} {rest : Items} (hc : c.isConnector = true)
    (hr : rest = [] ∨ ∃ s, rest = .not :: s) (right : IterableItem) :
    pushBackLeft right (c :: rest) = .error .dereferenced := by
  rcases hr with rfl | ⟨s, rfl⟩ <;> cases c <;> first | rfl | cases hc

/-- A waiting `not` is taken from the stack with its operand. -/
theorem pushBackIterable_waiting (e : Expression) (right : IterableItem) (odd : Bool) {s : Items}
    (h : notItem s = .not :: s) :
    ∃ x, pushBackIterable e right (waiting odd s) = pushBackLeft x s := by
  cases odd with
  | true => exact ⟨_, rfl⟩
  | false =>
    refine ⟨right, ?_⟩
    rw [waiting, if_neg (by simp), pushBackIterable]
    rintro s' rfl
    have hlen : s'.length = s'.length + 1 + 1 := congrArg List.length h
    omega

theorem notItem_connector {c : Item} (hc : c.isConnector = true) (s : Items) :
    notItem (c :: s) = .not :: c :: s := by
  cases c <;> first | rfl | cases hc

theorem StackAfter.operand {rev : List Token} {stack : Items} (h : StackAfter rev stack)
    (e : Expression)
    (right : IterableItem) {t : Token} (ht : t.isOperand = true) :
    wellPlaced rev = true ∧ (∃ s, pushBackIterable e right stack = .ok s ∧
      StackAfter (t :: rev) s) ∨
      wellPlaced rev = false ∧ pushBackIterable e right stack = .error .dereferenced := by
  obtain ⟨hlast, hodd, hconn⟩ := lastToken_operand ht rev
  by_cases hw : wellPlaced rev = true
  · obtain ⟨base, hb, rfl⟩ := h.base hw
    obtain ⟨x, hx⟩ := pushBackIterable_waiting e right (oddNots rev) (notItem_base hb)
    obtain ⟨y, hy⟩ := pushBackLeft_base hb x
    refine Or.inl ⟨hw, [.iterable y], hx.trans hy, fun _ => ⟨[.iterable y], ?_, ?_⟩, fun hf => ?_⟩
    · rw [hlast]
      exact .operand y ht
    · rw [hodd]
      rfl
    · simp [wellPlaced, hconn, hw] at hf
  · have hw : wellPlaced rev = false := by simpa using hw
    obtain ⟨odd, c, rest, hc, hr, rfl⟩ := h.doomed hw
    obtain ⟨x, hx⟩ := pushBackIterable_waiting e right odd (notItem_connector hc rest)
    exact Or.inr ⟨hw, hx.trans (pushBackLeft_doomed hc hr x)⟩

/-- The stack is one operand just if the tokens are well placed and end in an
operand. -/
theorem StackAfter.success {rev : List Token} {stack : Items} (h : StackAfter rev stack) :
    (∃ x, stack = [.iterable x]) ↔ (wellPlaced rev && endsInOperand rev) = true := by
  rw [Bool.and_eq_true, endsInOperand, Bool.and_eq_true, Bool.not_eq_true']
  constructor
  · rintro ⟨x, rfl⟩
    have hw : wellPlaced rev = true := by
      by_contra hf
      obtain ⟨odd, c, rest, hc, -, he⟩ := h.doomed (by simpa using hf)
      cases odd <;> cases he
      cases hc
    obtain ⟨base, hb, he⟩ := h.base hw
    cases hodd : oddNots rev with
    | true => simp [hodd, waiting] at he
    | false =>
      obtain rfl : [.iterable x] = base := by simpa [hodd, waiting] using he
      generalize lastToken rev = o at hb
      cases hb with
      | operand _ ht => exact ⟨hw, rfl, ht⟩
  · rintro ⟨hw, hodd, ht⟩
    obtain ⟨base, hb, rfl⟩ := h.base hw
    rw [hodd]
    generalize lastToken rev = o at hb ht
    cases hb with
    | empty => cases ht
    | operand x _ => exact ⟨x, rfl⟩
    | connector x ht' _ => simp [ht'] at ht

/-! ### All tokens -/

/-- What feeding a token comes to. -/
def Token.Outcome (rev : List Token) (t : Token) : Except Failure Items → Prop
  | .ok stack => t.safe = true ∧ t.complete = true ∧ (t.isOperand = true → wellPlaced rev = true) ∧
      StackAfter (t :: rev) stack
  | .error .rejected => t.safe = true ∧ t.complete = false
  | .error .dereferenced =>
    t.safe = false ∨ t.complete = true ∧ t.isOperand = true ∧ wellPlaced rev = false

/-- What feeding the tokens comes to. -/
def Outcome (rev ts : List Token) : Except Failure Items → Prop
  | .ok stack => safeAfter rev ts = true ∧ allComplete ts = true ∧
    StackAfter (ts.reverse ++ rev) stack
  | .error .rejected => safeAfter rev ts = true ∧ allComplete ts = false
  | .error .dereferenced => safeAfter rev ts = false

theorem StackAfter.outcome_operand {rev : List Token} {stack : Items} (h : StackAfter rev stack)
    (e : Expression)
    (right : IterableItem) {t : Token} (ht : t.isOperand = true) (hs : t.safe = true)
    (hc : t.complete = true) :
    t.Outcome rev (pushBackIterable e right stack) := by
  rcases h.operand e right ht with ⟨hw, s, he, hs'⟩ | ⟨hw, he⟩
  · rw [he]
    exact ⟨hs, hc, fun _ => hw, hs'⟩
  · rw [he]
    exact Or.inr ⟨hc, ht, hw⟩

mutual

theorem Token.feed_outcome (e : Expression) {rev : List Token} {stack : Items}
    (h : StackAfter rev stack) :
    ∀ t : Token, t.Outcome rev (t.feed e stack)
  | .word word => h.outcome_operand e _ rfl rfl rfl
  | .and => ⟨rfl, rfl, fun ht => (nomatch ht), h.connector rfl rfl⟩
  | .or => ⟨rfl, rfl, fun ht => (nomatch ht), h.connector rfl rfl⟩
  | .not => ⟨rfl, rfl, fun ht => (nomatch ht), h.not⟩
  | .bracket ts => by
    have hts := feedTokens_outcome e.createItem stackAfter_nil ts
    rw [Token.feed]
    cases hf : feedTokens e.createItem [] ts with
    | error failure =>
      rw [hf] at hts
      cases failure with
      | rejected => exact ⟨hts.1, by simp [Token.complete, hts.2]⟩
      | dereferenced => exact Or.inl hts
    | ok inner =>
      rw [hf] at hts
      obtain ⟨hs, hc, hi⟩ := hts
      have hsucc := hi.success
      rw [List.append_nil] at hsucc
      have hcomplete :
          (Token.bracket ts).complete = (wellPlaced ts.reverse && endsInOperand ts.reverse) := by
        rw [Token.complete, hc, Bool.true_and]
      split
      next item he =>
        obtain rfl : inner = [.iterable item] := Except.ok.inj he
        exact h.outcome_operand e _ rfl hs (hcomplete.trans (hsucc.mp ⟨item, rfl⟩))
      next hne he =>
        obtain rfl := Except.ok.inj he
        refine ⟨hs, ?_⟩
        rw [hcomplete, ← Bool.not_eq_true, ← hsucc]
        rintro ⟨x, rfl⟩
        exact hne x rfl
      next he => cases he

theorem feedTokens_outcome (e : Expression) {rev : List Token} {stack : Items}
    (h : StackAfter rev stack) :
    ∀ ts : List Token, Outcome rev ts (feedTokens e stack ts)
  | [] => ⟨rfl, rfl, h⟩
  | t :: ts => by
    have ht := t.feed_outcome e h
    rw [feedTokens]
    cases hf : t.feed e stack with
    | ok stack =>
      rw [hf] at ht
      obtain ⟨hs, hc, hw, h'⟩ := ht
      have hts := feedTokens_outcome e h' ts
      have hsafe : safeAfter rev (t :: ts) = safeAfter (t :: rev) ts := by
        cases hop : t.isOperand <;> simp [safeAfter, hs, hc, hop, hw]
      have hall : allComplete (t :: ts) = allComplete ts := by rw [allComplete, hc, Bool.true_and]
      have hrev : (t :: ts).reverse ++ rev = ts.reverse ++ t :: rev := by simp
      unfold Outcome at hts ⊢
      rw [hsafe, hall, hrev]
      exact hts
    | error failure =>
      rw [hf] at ht
      cases failure with
      | rejected =>
        obtain ⟨hs, hc⟩ := ht
        exact ⟨by simp [safeAfter, hs, hc], by simp [allComplete, hc]⟩
      | dereferenced =>
        rcases ht with hs | ⟨hc, hop, hw⟩
        · simp [Outcome, safeAfter, hs]
        · simp [Outcome, safeAfter, hc, hop, hw]

end

/-- **No operator is used as an operand, just for safe tokens.** Whatever the
words and the bounds are, what is taken from the stack as a left operand is
one, unless an operand comes after a misplaced connector. -/
theorem feedTokens_dereferences (e : Expression) (ts : List Token) :
    feedTokens e [] ts ≠ .error .dereferenced ↔ safe ts = true := by
  have h := feedTokens_outcome e stackAfter_nil ts
  unfold safe
  cases hf : feedTokens e [] ts with
  | ok stack =>
    rw [hf] at h
    exact ⟨fun _ => h.1, fun _ => by simp⟩
  | error failure =>
    rw [hf] at h
    cases failure with
    | rejected => exact ⟨fun _ => h.1, fun _ => by simp⟩
    | dereferenced =>
      have h : safeAfter [] ts = false := h
      simp [h]

/-- A connector before the first operand is taken for the left one. -/
theorem feedTokens_and_word :
    ¬ ∀ (e : Expression) (ts : List Token), feedTokens e [] ts ≠ .error .dereferenced := by
  intro h
  exact h (.new id .create .root .root) [.and, .word [120]] rfl

end BeeFish
