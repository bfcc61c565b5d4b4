/-
# What a query means

A `Query` is a well formed query: operands with connectors, or nothing,
between them and any number of `not` before each; an operand is a word or a
query in brackets. Its `meaning` reads from the left with equal precedence.
The stack of an expression that is fed the tokens of a query ends as one
operand with this meaning (`Query.feed`), which `getPath` intersects with the
bounds (`query_enumerates`).

Key definitions: `Query`, `Query.tokens`, `Query.meaning`.
-/
import BeeFish.CursorExpr
import BeeFish.Expression

namespace BeeFish

/-! ### Queries -/

inductive Connector where
  | and
  | or
  deriving DecidableEq, Repr

mutual

inductive Atom where
  | word (word : BString)
  | bracket (query : Query)

inductive Query where
  | operand (nots : ℕ) (atom : Atom)
  | join (left : Query) (connectors : List Connector) (nots : ℕ) (atom : Atom)

end

def Connector.token : Connector → Token
  | and => .and
  | or => .or

mutual

def Atom.token : Atom → Token
  | .word word => .word word
  | .bracket q => .bracket q.tokens

def Query.tokens : Query → List Token
  | .operand nots a => List.replicate nots .not ++ [a.token]
  | .join q connectors nots a =>
    q.tokens ++ (connectors.map Connector.token ++ (List.replicate nots .not ++ [a.token]))

end

/-! ### The meaning -/

/-- Of several connectors the last one counts, and `and` is meant where there
is none. -/
def isAnd (connectors : List Connector) : Bool := connectors.getLast?.getD .and == .and

/-- `not` cancels in pairs. -/
def negate {α : Type} (nots : ℕ) (bounds S : Set α) : Set α :=
  if nots % 2 = 1 then bounds \ S else S

def connect {α : Type} (connectors : List Connector) (S S' : Set α) : Set α :=
  if isAnd connectors then S ∩ S' else S ∪ S'

section

variable (toLower : BString → BString) (M : Store) (words bounds : List Key)

mutual

def Atom.meaning : Atom → Set Key
  | .word word => CursorExpr.under M (words ++ [.of (toLower word)])
  | .bracket q => q.meaning

/-- The set of keys that the query stands for. -/
def Query.meaning : Query → Set Key
  | .operand nots a => negate nots (CursorExpr.under M bounds) a.meaning
  | .join q connectors nots a =>
    connect connectors q.meaning (negate nots (CursorExpr.under M bounds) a.meaning)

end

end

mutual

def Atom.text : Atom → BString
  | .word word => word
  | .bracket q => BeeFish.text "(" ++ q.text ++ BeeFish.text ")"

/-- The query with all its brackets, as the expression writes it. -/
def Query.text : Query → BString
  | .operand nots a => if nots % 2 = 1 then BeeFish.text "not " ++ a.text else a.text
  | .join q connectors nots a =>
    BeeFish.text "(" ++ q.text ++ (if isAnd connectors then BeeFish.text " and "
      else BeeFish.text " or ") ++
      (if nots % 2 = 1 then BeeFish.text "not " ++ a.text else a.text) ++ BeeFish.text ")"

end

/-! ### Feeding a query -/

open Expression

theorem feedTokens_append (e : Expression) : ∀ (ts us : List Token) {stack s : Items},
    feedTokens e stack ts = .ok s → feedTokens e stack (ts ++ us) = feedTokens e s us
  | [], us, stack, s, h => by
    obtain rfl : stack = s := Except.ok.inj h
    rfl
  | t :: ts, us, stack, s, h => by
    rw [feedTokens] at h
    rw [List.cons_append, feedTokens]
    cases ht : t.feed e stack with
    | error failure =>
      rw [ht] at h
      cases h
    | ok s' =>
      rw [ht] at h
      exact feedTokens_append e ts us h

theorem feedTokens_nots (e : Expression) {s : Items} (h : notItem s = .not :: s) :
    ∀ (nots : ℕ) (odd : Bool),
    feedTokens e (waiting odd s) (List.replicate nots .not) =
      .ok (waiting (odd ^^ decide (nots % 2 = 1)) s)
  | 0, odd => by simp [feedTokens]
  | nots + 1, odd => by
    have hpar : (decide ((nots + 1) % 2 = 1)) = !decide (nots % 2 = 1) := by
      rcases Nat.mod_two_eq_zero_or_one nots with hn | hn <;> simp [Nat.add_mod, hn]
    rw [List.replicate_succ, feedTokens, Token.feed, notItem_waiting h]
    dsimp only
    rw [feedTokens_nots e h nots (!odd), hpar]
    cases odd <;> simp

def Connector.item : Connector → Item
  | and => .and
  | or => .or

/-- An operand and the connector that stands after it. -/
def linked (x : IterableItem) : Option Connector → Items
  | none => [.iterable x]
  | some c => [c.item, .iterable x]

theorem feedTokens_connectors (e : Expression) (x : IterableItem) :
    ∀ (connectors : List Connector) (o : Option Connector),
    feedTokens e (linked x o) (connectors.map Connector.token) =
      .ok (linked x (connectors.getLast?.or o))
  | [], o => by simp [feedTokens]
  | c :: cs, o => by
    have hfeed : c.token.feed e (linked x o) = .ok (linked x (some c)) := by
      cases o with
      | none => cases c <;> rfl
      | some c' => cases c <;> cases c' <;> rfl
    rw [List.map_cons, feedTokens, hfeed]
    dsimp only
    rw [feedTokens_connectors e x cs (some c)]
    cases cs with
    | nil => rfl
    | cons d ds => simp [List.getLast?_cons]

theorem notItem_linked (x : IterableItem) (o : Option Connector) :
    notItem (linked x o) = .not :: linked x o := by
  cases o with
  | none => rfl
  | some c => cases c <;> rfl

theorem pushBackLeft_linked (x right : IterableItem) (o : Option Connector) :
    pushBackLeft right (linked x o) = join (o.getD .and == .and) (.iterable x) right [] := by
  cases o with
  | none => rfl
  | some c => cases c <;> rfl

/-! ### The cursor of a query -/

/-- The words and the bounds of the expression are paths of the store. -/
structure Expression.At (e : Expression) (M : Store) (words bounds : List Key) : Prop where
  stands : ∃ Γ L, Rep e.database Γ L ∧ Refines L M ∧ StandsAt L words e.words [] ∧
    StandsAt L bounds e.bounds []

namespace Expression.At

variable {e : Expression} {M : Store} {words bounds : List Key}

theorem createItem (h : e.At M words bounds) : e.createItem.At M words bounds := ⟨h.stands⟩

theorem wordPath (h : e.At M words bounds) (word : BString) :
    Denotes e.database (.newWordPath e.toLower e.database e.words word)
      (CursorExpr.under M (words ++ [.of (e.toLower word)])) := by
  obtain ⟨Γ, L, hR, hM, hw, -⟩ := h.stands
  exact .newWordPath e.toLower word hR hM hw

theorem bounds_path (h : e.At M words bounds) :
    Denotes e.database (.path e.bounds) (CursorExpr.under M bounds) := by
  obtain ⟨Γ, L, hR, hM, -, hb⟩ := h.stands
  exact .path hR hM (hM.isSome_of_standsAt hb) hb

theorem notPath (h : e.At M words bounds) {c : Cursor} {S : Set Key} (hc : Denotes e.database c S) :
    Denotes e.database (.notPath c.copy e.bounds.copy .empty 0)
      (CursorExpr.under M bounds \ S) := by
  obtain ⟨Γ, L, hR, hM, -, hb⟩ := h.stands
  exact hc.copy.notPath hR hM (hM.isSome_of_standsAt hb) (standsAt_copy hb)

end Expression.At

/-- The operand stands for the set and has the text. -/
structure IterableItem.Means (x : IterableItem) (db : Database) (S : Set Key)
    (text : BString) : Prop where
  denotes : Denotes db x.iterable S
  text : x.text = text

section

variable {M : Store} {words bounds : List Key}

/-- A waiting `not` is applied to the operand that arrives. -/
theorem pushBackIterable_negate {e : Expression} (h : e.At M words bounds) {x : IterableItem}
    {S : Set Key} {t : BString}
    (hx : x.Means e.database S t) (nots : ℕ) {s : Items} (hs : notItem s = .not :: s) :
    ∃ y : IterableItem,
      pushBackIterable e x (waiting (decide (nots % 2 = 1)) s) = pushBackLeft y s ∧
      y.Means e.database (negate nots (CursorExpr.under M bounds) S)
        (if nots % 2 = 1 then text "not " ++ t else t) := by
  unfold negate
  by_cases hn : nots % 2 = 1
  · simp only [hn, decide_true, if_true]
    exact ⟨_, rfl, h.notPath hx.denotes, by rw [hx.text]⟩
  · simp only [hn, decide_false, if_false]
    refine ⟨x, ?_, hx⟩
    rw [waiting, if_neg (by simp), pushBackIterable]
    rintro s' rfl
    have hlen : s'.length = s'.length + 1 + 1 := congrArg List.length hs
    omega

theorem join_means {db : Database} {x y : IterableItem} {S S' : Set Key} {t t' : BString}
    (hx : x.Means db S t)
    (hy : y.Means db S' t') (connectors : List Connector) :
    ∃ z : IterableItem, join (isAnd connectors) (.iterable x) y [] = .ok [.iterable z] ∧
      z.Means db (connect connectors S S')
        (text "(" ++ t ++ (if isAnd connectors then text " and " else text " or ") ++
          t' ++ text ")") := by
  unfold connect
  cases isAnd connectors with
  | true => exact ⟨_, rfl, hx.denotes.copy.andPath hy.denotes.copy, by rw [hx.text, hy.text]; rfl⟩
  | false => exact ⟨_, rfl, hx.denotes.copy.orPath hy.denotes.copy, by rw [hx.text, hy.text]; rfl⟩

theorem feedTokens_singleton (e : Expression) (stack : Items) (t : Token) :
    feedTokens e stack [t] = t.feed e stack := by
  rw [feedTokens]
  cases t.feed e stack <;> rfl

/-- An operand with its nots arrives at a stack without a waiting `not`. -/
theorem feed_operand {e : Expression} (h : e.At M words bounds) {s : Items}
    (hs : notItem s = .not :: s) (nots : ℕ)
    {t : Token} {x : IterableItem} {S : Set Key} {b : BString}
    (ht : ∀ stack, t.feed e stack = pushBackIterable e x stack) (hx : x.Means e.database S b) :
    ∃ y : IterableItem, feedTokens e s (List.replicate nots .not ++ [t]) = pushBackLeft y s ∧
      y.Means e.database (negate nots (CursorExpr.under M bounds) S)
        (if nots % 2 = 1 then text "not " ++ b else b) := by
  obtain ⟨y, hy, hm⟩ := pushBackIterable_negate h hx nots hs
  have hnots :
      feedTokens e s (List.replicate nots .not) = .ok (waiting (decide (nots % 2 = 1)) s) := by
    simpa [waiting] using feedTokens_nots e hs nots false
  refine ⟨y, ?_, hm⟩
  calc feedTokens e s (List.replicate nots .not ++ [t])
      = feedTokens e (waiting (decide (nots % 2 = 1)) s) [t] := feedTokens_append e _ _ hnots
    _ = pushBackIterable e x (waiting (decide (nots % 2 = 1)) s) := by rw [feedTokens_singleton, ht]
    _ = pushBackLeft y s := hy

mutual

theorem Atom.feed {e : Expression} (h : e.At M words bounds) : ∀ a : Atom,
    ∃ x : IterableItem, (∀ stack, a.token.feed e stack = pushBackIterable e x stack) ∧
      x.Means e.database (a.meaning e.toLower M words bounds) a.text
  | .word word => ⟨_, fun _ => rfl, h.wordPath word, rfl⟩
  | .bracket q => by
    obtain ⟨x, hx, hm⟩ := q.feed h.createItem
    refine ⟨⟨x.iterable, text "(" ++ x.text ++ text ")"⟩, fun stack => ?_,
      hm.denotes, by rw [hm.text]; rfl⟩
    rw [Atom.token, Token.feed, hx]
    rfl

/-- The stack ends as one operand that stands for the meaning of the query. -/
theorem Query.feed {e : Expression} (h : e.At M words bounds) : ∀ q : Query,
    ∃ x : IterableItem, feedTokens e [] q.tokens = .ok [.iterable x] ∧
      x.Means e.database (q.meaning e.toLower M words bounds) q.text
  | .operand nots a => by
    obtain ⟨x, ht, hx⟩ := a.feed h
    exact feed_operand h (s := []) rfl nots ht hx
  | .join q connectors nots a => by
    obtain ⟨x, hq, hx⟩ := q.feed h
    obtain ⟨y, ht, hy⟩ := a.feed h
    obtain ⟨z, hz, hmz⟩ := feed_operand h (notItem_linked x connectors.getLast?) nots ht hy
    obtain ⟨r, hr, hm⟩ := join_means hx hmz connectors
    have hcs : feedTokens e [.iterable x] (connectors.map Connector.token) =
      .ok (linked x connectors.getLast?) := by
      simpa [linked] using feedTokens_connectors e x connectors none
    refine ⟨r, ?_, hm⟩
    calc feedTokens e [] (Query.join q connectors nots a).tokens
        = feedTokens e [.iterable x]
          (connectors.map Connector.token ++ (List.replicate nots .not ++ [a.token])) :=
          feedTokens_append e _ _ hq
      _ = feedTokens e (linked x connectors.getLast?) (List.replicate nots .not ++ [a.token]) :=
          feedTokens_append e _ _ hcs
      _ = pushBackLeft z (linked x connectors.getLast?) := hz
      _ = join (isAnd connectors) (.iterable x) z [] := pushBackLeft_linked x z connectors.getLast?
      _ = .ok [.iterable r] := hr

end

end

/-! ### Enumerating a query -/

/-- Enumerating the cursor lists the set, each key once and in order. -/
def Cursor.Lists (c : Cursor) (db : Database) (S : Set Key) : Prop :=
  ∃ (items : List Key) (w : Walk Cursor), Returns (Walk.nextItems · ⟨db, c, .empty⟩) (items, w) ∧
    w.stack.size = 0 ∧
    (items.map encode).Pairwise (· < ·) ∧ ∀ key, key ∈ items ↔ key ∈ S

theorem Denotes.lists {db : Database} {c : Cursor} {S : Set Key} (h : Denotes db c S) :
    c.Lists db S := by
  obtain ⟨T, R, hT, hR, -, hS⟩ := h
  obtain ⟨items, hi⟩ : ∃ items : List Key, items.map encode = T.keys :=
    exists_items fun k hk => ⟨⟨k, (T.mem_keys.mp hk).1⟩, rfl⟩
  obtain ⟨w, hr, hat⟩ := nextItems_all hT hR hi
  refine ⟨items, w, hr, hat.stack.size, hi ▸ T.sorted_keys, fun key => ?_⟩
  rw [← hS, ← hi]
  constructor
  · exact fun hk => List.mem_map_of_mem hk
  · intro hk
    obtain ⟨k, hk, he⟩ := List.mem_map.mp hk
    rwa [← encode_injective he]

/-- `Expression::getPath`, if the stack begins with an operand. -/
def Expression.getPath (e : Expression) (stack : Items) : Option Cursor :=
  match stack.getLast? with
  | some (.iterable item) => some (.andPath item.iterable.copy (.path e.bounds.copy))
  | _ => none

/-- An expression over the words and the bounds at two paths of the file, which
it makes if they are not there. -/
def Expression.open (toLower : BString → BString) (db : Database) (words bounds : List Key) :
    Expression :=
  let (words, db) := Path.getAll db .root words
  let (bounds, db) := Path.getAll db .root bounds
  .new toLower db words bounds

theorem Database.Stores.expression {db : Database} {M : Store} (h : db.Stores M)
    (toLower : BString → BString)
    (words bounds : List Key) :
    (Expression.open toLower db words bounds).At ((M.visit words).visit bounds) words bounds := by
  obtain ⟨Γ, L, h, hM⟩ := h
  obtain ⟨r, hr, h0⟩ := h.root
  obtain ⟨Γ₁, L₁, n, hn, h₁, hw, hg⟩ := h.getAll words (p := .root) hr h0.symm
  obtain ⟨r₁, hr₁, h0₁⟩ := h₁.root
  obtain ⟨Γ₂, L₂, m, hm, h₂, hb, hg₂⟩ := h₁.getAll bounds (p := .root) hr₁ h0₁.symm
  rw [List.nil_append] at hw hg hb hg₂
  exact ⟨Γ₂, L₂, h₂, (hM.grown h₁.toWF hg).grown h₂.toWF hg₂,
    ⟨n, by simpa using hg₂.old hw, hn.symm⟩,
    ⟨m, by simpa using hb, hm.symm⟩⟩

/-- **A query enumerates its meaning.** After any run of operations, an
expression that is fed the tokens of a well formed query ends with one operand
on its stack. Enumerating its cursor lists the meaning of the query, and
enumerating `getPath()` lists the part of it within the bounds. -/
theorem query_enumerates (toLower : BString → BString) (ops : List Op) (words bounds : List Key)
    (q : Query) :
    let M := ((applyAll .empty ops).2.visit words).visit bounds
    ∃ (answers : List Answer) (db : Database) (x : IterableItem) (path : Cursor),
      let e := Expression.open toLower db words bounds
      runAll .create ops = some (answers, db) ∧ feedTokens e [] q.tokens = .ok [.iterable x] ∧
      x.iterable.Lists e.database (q.meaning toLower M words bounds) ∧
      e.getPath [.iterable x] = some path ∧
      path.Lists e.database (q.meaning toLower M words bounds ∩ CursorExpr.under M bounds) := by
  obtain ⟨db, he, hs⟩ := stores_create.runAll ops
  have h := hs.expression toLower words bounds
  obtain ⟨x, hx, hm⟩ := q.feed h
  exact ⟨_, db, x, _, he, hx, hm.denotes.lists, rfl,
    (hm.denotes.copy.andPath h.bounds_path.copy).lists⟩

end BeeFish
