/-
# The text of a JSON value

A JSON text is read byte by byte (`lex`): spaces are left out, a scalar ends at
a space or at a mark, the escapes of a string are undone, and what is not JSON
has no tokens. The tokens of a value (`Json.tokens`) have one comma between
two items or two members and none elsewhere.

A writer puts the text together from pieces. `Reads` says of a piece that its
tokens are the expected ones when a condition holds, and that otherwise it
breaks the text or has too many tokens, so a text of such pieces is read as
expected exactly when all the conditions hold (`Reads.append`,
`Reads.lex_iff`).

Key definitions: `Json`, `Json.tokens`, `lex`, `Reads`.
-/
import BeeFish.Lib.Utf8Text

namespace JsonText

open Utf8 (Bytes)

/-- A JSON value: a scalar is kept as it is written, a string as its bytes. -/
inductive Json where
  | scalar (text : Bytes)
  | string (value : Bytes)
  | array (items : List Json)
  | object (members : List (Bytes × Json))

inductive Token where
  | scalar (text : Bytes)
  | string (value : Bytes)
  | leftBracket
  | rightBracket
  | leftBrace
  | rightBrace
  | comma
  | colon
  deriving DecidableEq, Repr

/-- One comma between two. -/
def separate : List (List Token) → List Token
  | [] => []
  | [ts] => ts
  | ts :: us :: more => ts ++ .comma :: separate (us :: more)

mutual

def Json.tokens : Json → List Token
  | .scalar text => [.scalar text]
  | .string value => [.string value]
  | .array items => .leftBracket :: separate (itemTokens items) ++ [.rightBracket]
  | .object members => .leftBrace :: separate (memberTokens members) ++ [.rightBrace]

def itemTokens : List Json → List (List Token)
  | [] => []
  | item :: items => item.tokens :: itemTokens items

def memberTokens : List (Bytes × Json) → List (List Token)
  | [] => []
  | (name, value) :: members => (.string name :: .colon :: value.tokens) :: memberTokens members

end

/-! ### Scalars -/

def isDigit (b : UInt8) : Bool := 48 ≤ b && b ≤ 57

/-- What comes after one digit or more. -/
def digits : Bytes → Option Bytes
  | [] => none
  | b :: s => if isDigit b then some (s.dropWhile isDigit) else none

def minus : Bytes → Bytes
  | 45 :: s => s
  | s => s

def integer : Bytes → Option Bytes
  | 48 :: s => some s
  | s => digits s

def fraction : Bytes → Option Bytes
  | 46 :: s => digits s
  | s => some s

def sign : Bytes → Bytes
  | 43 :: s => s
  | 45 :: s => s
  | s => s

def exponent : Bytes → Option Bytes
  | [] => some []
  | b :: s => if b = 69 ∨ b = 101 then digits (sign s) else some (b :: s)

def isNumber (s : Bytes) : Bool := ((integer (minus s)).bind fraction).bind exponent == some []

/-- `true`, `false`, `null` or a number. -/
def isScalar (s : Bytes) : Bool :=
  s == [116, 114, 117, 101] || s == [102, 97, 108, 115, 101] ||
    s == [110, 117, 108, 108] || isNumber s

/-! ### Reading -/

def isSpace (b : UInt8) : Bool := b == 32 || b == 9 || b == 10 || b == 13

def punctuation (b : UInt8) : Option Token :=
  if b = 91 then some .leftBracket
  else if b = 93 then some .rightBracket
  else if b = 123 then some .leftBrace
  else if b = 125 then some .rightBrace
  else if b = 44 then some .comma
  else if b = 58 then some .colon
  else none

/-- What a byte after a backslash stands for. -/
def unescape (b : UInt8) : Option UInt8 :=
  if b = 34 ∨ b = 92 ∨ b = 47 then some b
  else if b = 98 then some 8
  else if b = 102 then some 12
  else if b = 110 then some 10
  else if b = 114 then some 13
  else if b = 116 then some 9
  else none

def hexDigit (b : UInt8) : Option ℕ :=
  if isDigit b then some (b.toNat - 48)
  else if 97 ≤ b ∧ b ≤ 102 then some (b.toNat - 87)
  else if 65 ≤ b ∧ b ≤ 70 then some (b.toNat - 55)
  else none

/-- The string after a code unit of UTF-16, and the first half of a pair. -/
def codeUnit (value : Bytes) (unit : ℕ) : Option ℕ → Option (Bytes × Option ℕ)
  | none =>
    if 0xD800 ≤ unit ∧ unit ≤ 0xDBFF then some (value, some unit)
    else if 0xDC00 ≤ unit ∧ unit ≤ 0xDFFF then none
    else some (value ++ Utf8.encode [Char.ofNat unit], none)
  | some high =>
    if 0xDC00 ≤ unit ∧ unit ≤ 0xDFFF then
      some (value ++ Utf8.encode [Char.ofNat (0x10000 + (high - 0xD800) * 0x400 + (unit - 0xDC00))],
        none)
    else none

/-- Where the reader is; in a string with the value so far and the first half
of a pair that waits for the second. -/
inductive Mode where
  | between
  | scalar (text : Bytes)
  | string (value : Bytes) (high : Option ℕ)
  | escape (value : Bytes) (high : Option ℕ)
  | unicode (value : Bytes) (high : Option ℕ) (unit : List ℕ)

namespace Mode

/-- A byte between two tokens. -/
def start (b : UInt8) : List Token × Mode :=
  if isSpace b then ([], between)
  else match punctuation b with
    | some token => ([token], between)
    | none => if b = 34 then ([], string [] none) else ([], scalar [b])

def step : Mode → UInt8 → Option (List Token × Mode)
  | between, b => some (start b)
  | scalar text, b =>
    if isSpace b || (punctuation b).isSome then
      if isScalar text then some (.scalar text :: (start b).1, (start b).2) else none
    else some ([], scalar (text ++ [b]))
  | string value high, b =>
    if b = 92 then some ([], escape value high)
    else if high.isSome ∨ b < 32 then none
    else if b = 34 then some ([.string value], between)
    else some ([], string (value ++ [b]) none)
  | escape value high, b =>
    if b = 117 then some ([], unicode value high [])
    else if high.isSome then none
    else (unescape b).map fun c => ([], string (value ++ [c]) none)
  | unicode value high unit, b => do
    let digit ← hexDigit b
    if unit.length < 3 then return ([], unicode value high (unit ++ [digit]))
    let (value, high) ← codeUnit value ((unit ++ [digit]).foldl (· * 16 + ·) 0) high
    return ([], string value high)

theorem step_between (b : UInt8) : between.step b = some ((start b).1, (start b).2) := rfl

def finish : Mode → Option (List Token)
  | between => some []
  | scalar text => if isScalar text then some [.scalar text] else none
  | _ => none

end Mode

def lexFrom : Mode → Bytes → Option (List Token)
  | mode, [] => mode.finish
  | mode, b :: s => (mode.step b).bind fun next => (lexFrom next.2 s).map (next.1 ++ ·)

/-- The tokens of a text; none if it is not JSON. -/
def lex (s : Bytes) : Option (List Token) := lexFrom .between s

example : lex (String.toUTF8 "[1, \"\\u00e9\", -2.5e3]").toList =
    some [.leftBracket, .scalar [49], .comma, .string [195, 169], .comma,
      .scalar [45, 50, 46, 53, 101, 51],
      .rightBracket] := by decide +kernel

/-! ### Pieces of a text -/

theorem lexFrom_step {mode mode' : Mode} {b : UInt8} {ts : List Token}
    (h : mode.step b = some (ts, mode')) (s : Bytes) :
    lexFrom mode (b :: s) = (lexFrom mode' s).map (ts ++ ·) := by
  rw [lexFrom, h]
  rfl

theorem lexFrom_stuck {mode : Mode} {b : UInt8} (h : mode.step b = none) (s : Bytes) :
    lexFrom mode (b :: s) = none := by
  rw [lexFrom, h]
  rfl

/-- A scalar ends before the text. -/
def Ends (s : Bytes) : Prop := ∀ b ∈ s.head?, isSpace b || (punctuation b).isSome

theorem Ends.nil : Ends [] := by simp [Ends]

theorem Ends.cons {b : UInt8} (h : (isSpace b || (punctuation b).isSome) = true) (s : Bytes) :
    Ends (b :: s) := by
  intro c hc
  rwa [← Option.some.inj hc]

/-- A piece of a text with something after it that fulfils `P`: its tokens are
`ts` if the condition holds, and otherwise they are more, or there are none. -/
def Reads (P : Bytes → Prop) (x : Bytes) (ts : List Token) (good : Prop) : Prop :=
  ∃ o : Option (List Token),
    (∀ rest, P rest → lexFrom .between (x ++ rest) = o.bind fun us => (lexFrom .between rest).map
      (us ++ ·)) ∧
    (good → o = some ts) ∧ (¬ good → ∀ us, o = some us → ts.length < us.length)

variable {P Q : Bytes → Prop} {x y : Bytes} {ts us : List Token} {good good' : Prop}

/-- Bytes of a string that stand for themselves. -/
theorem lexFrom_raw {value rest : Bytes} (h : ∀ b ∈ x, 32 ≤ b ∧ b ≠ 34 ∧ b ≠ 92) :
    lexFrom (.string value none) (x ++ rest) = lexFrom (.string (value ++ x) none) rest := by
  induction x generalizing value with
  | nil => simp
  | cons b x ih =>
    obtain ⟨h32, h34, h92⟩ := h b List.mem_cons_self
    have hb : (Mode.string value none).step b = some ([], .string (value ++ [b]) none) := by
      simp [Mode.step, h92, h34, UInt8.not_lt.mpr h32]
    rw [List.cons_append, lexFrom_step hb, ih fun c hc => h c (List.mem_cons_of_mem _ hc)]
    simp

/-- A byte of a string after a backslash. -/
theorem lexFrom_escape {value rest : Bytes} {b c : UInt8} (h : unescape b = some c) (hu : b ≠ 117) :
    lexFrom (.string value none) (92 :: b :: rest) = lexFrom
      (.string (value ++ [c]) none) rest := by
  have hback : (Mode.string value none).step 92 = some ([], .escape value none) := by
    simp [Mode.step]
  have hb : (Mode.escape value none).step b = some ([], .string (value ++ [c]) none) := by
    simp [Mode.step, hu, h]
  rw [lexFrom_step hback, lexFrom_step hb]
  simp

namespace Reads

/-- A piece with tokens that are known. -/
theorem of_eq (h : ∀ rest, P rest → lexFrom .between (x ++ rest) = (lexFrom .between rest).map
    (ts ++ ·)) :
    Reads P x ts True :=
  ⟨some ts, fun rest hr => h rest hr, fun _ => rfl, fun hn => absurd trivial hn⟩

/-- A piece that breaks the text when the condition fails. -/
theorem of_ite [Decidable good] (h : ∀ rest, P rest →
    lexFrom .between (x ++ rest) = if good then (lexFrom .between rest).map (ts ++ ·)
      else none) : Reads P x ts good := by
  refine ⟨if good then some ts else none, fun rest hr => ?_, fun hg => if_pos hg,
    fun hn us hu => ?_⟩
  · rw [h rest hr]
    split_ifs <;> rfl
  · rw [if_neg hn] at hu
    exact absurd hu nofun

theorem nil : Reads P [] [] True :=
  of_eq fun rest _ => by cases h : lexFrom .between rest <;> simp [h]

theorem mono (h : Reads P x ts good) (hQ : ∀ rest, Q rest → P rest) : Reads Q x ts good := by
  obtain ⟨o, hread, hgood⟩ := h
  exact ⟨o, fun rest hr => hread rest (hQ rest hr), hgood⟩

theorem congr (h : Reads P x ts good) (hg : good ↔ good') : Reads P x ts good' := by
  rwa [← propext hg]

/-- At least the expected tokens. -/
theorem le {o : Option (List Token)}
    (h : (good → o = some ts) ∧ (¬ good → ∀ us, o = some us → ts.length < us.length)) :
    ∀ us, o = some us → ts.length ≤ us.length := by
  intro us hu
  by_cases hg : good
  · rw [h.1 hg] at hu
    exact Nat.le_of_eq (congrArg List.length (Option.some.inj hu))
  · exact Nat.le_of_lt (h.2 hg us hu)

/-- **Two pieces one after the other.** -/
theorem append (hx : Reads P x ts good) (hy : Reads Q y us good')
    (hP : ∀ rest, Q rest → P (y ++ rest)) :
    Reads Q (x ++ y) (ts ++ us) (good ∧ good') := by
  obtain ⟨o, hreadx, hox⟩ := hx
  obtain ⟨o', hready, hoy⟩ := hy
  refine ⟨o.bind fun vs => o'.map (vs ++ ·), fun rest hr => ?_, ?_, ?_⟩
  · rw [List.append_assoc, hreadx _ (hP rest hr), hready rest hr]
    cases o <;> cases o' <;> cases lexFrom .between rest <;> simp
  · rintro ⟨hg, hg'⟩
    rw [hox.1 hg, hoy.1 hg']
    rfl
  · intro hn ws hw
    obtain ⟨vs, hvs, hw⟩ := Option.bind_eq_some_iff.mp hw
    obtain ⟨vs', hvs', rfl⟩ := Option.map_eq_some_iff.mp hw
    have hle := le hox vs hvs
    have hle' := le hoy vs' hvs'
    simp only [List.length_append]
    by_cases hg : good
    · have := hoy.2 (fun hg' => hn ⟨hg, hg'⟩) vs' hvs'
      omega
    · have := hox.2 hg vs hvs
      omega

/-- Tokens that should not be there. -/
theorem extra (hx : Reads P x ts True) (hne : ts ≠ []) : Reads P x [] False := by
  obtain ⟨o, hread, hgood, -⟩ := hx
  refine ⟨o, hread, False.elim, fun _ us hu => ?_⟩
  rw [hgood trivial] at hu
  rw [← Option.some.inj hu]
  exact List.length_pos_iff.mpr hne

theorem spaces (h : ∀ b ∈ x, isSpace b) : Reads P x [] True := of_eq fun rest _ => by
  induction x with
  | nil => simp
  | cons b x ih =>
    have hb : Mode.between.step b = some ([], .between) := by
      simp [Mode.step, Mode.start, h b List.mem_cons_self]
    rw [List.cons_append, lexFrom_step hb, ih fun c hc => h c (List.mem_cons_of_mem _ hc)]
    simp

theorem mark {b : UInt8} {token : Token} (h : Mode.start b = ([token], .between)) :
    Reads P [b] [token] True :=
  of_eq fun rest _ =>
    lexFrom_step (show Mode.between.step b = some ([token], .between) from congrArg some h) rest

/-- The bytes of a scalar, which holds no byte that ends it. -/
theorem scalar {text : Bytes} (hne : text ≠ [])
    (h : ∀ b ∈ text, isSpace b = false ∧ punctuation b = none)
    (hquote : text.head? ≠ some 34) : Reads Ends text [.scalar text] (isScalar text) := by
  refine of_ite fun rest hr => ?_
  have hmore : ∀ s t : Bytes, (∀ b ∈ s, isSpace b = false ∧ punctuation b = none) →
      lexFrom (.scalar t) (s ++ rest) = if isScalar (t ++ s) then (lexFrom .between rest).map
        (.scalar (t ++ s) :: ·) else none := by
    intro s
    induction s with
    | nil =>
      intro t _
      rw [List.nil_append, List.append_nil]
      cases rest with
      | nil => simp [lexFrom, Mode.finish]
      | cons b rest =>
        have hb := hr b rfl
        by_cases hs : isScalar t
        · rw [lexFrom_step
            (show (Mode.scalar t).step b = some (.scalar t :: (Mode.start b).1, (Mode.start b).2) by
            simp [Mode.step, hb, hs]), lexFrom_step (Mode.step_between b), if_pos hs]
          simp [Function.comp_def]
        · rw [lexFrom_stuck (by simp [Mode.step, hb, hs]), if_neg hs]
    | cons b s ih =>
      intro t ht
      obtain ⟨hspace, hmark⟩ := ht b List.mem_cons_self
      have hb : (Mode.scalar t).step b = some ([], .scalar (t ++ [b])) := by
        simp [Mode.step, hspace, hmark]
      rw [List.cons_append, lexFrom_step hb, ih _ fun c hc => ht c (List.mem_cons_of_mem _ hc),
        List.append_assoc]
      simp
  cases text with
  | nil => exact absurd rfl hne
  | cons b s =>
    obtain ⟨hspace, hmark⟩ := h b List.mem_cons_self
    have hb : Mode.between.step b = some ([], .scalar [b]) := by
      simp [Mode.step, Mode.start, hspace, hmark, show b ≠ 34 by simpa using hquote]
    rw [List.cons_append, lexFrom_step hb, hmore s [b] fun c hc => h c (List.mem_cons_of_mem _ hc)]
    simp

/-- A string in quotes, of which it is known how its bytes are read. -/
theorem string {value : Bytes} [Decidable good]
    (h : ∀ rest, lexFrom (.string [] none) (x ++ 34 :: rest) =
    if good then lexFrom (.string value none) (34 :: rest) else none) : Reads P ([34] ++ x ++ [34])
      [.string value] good := by
  refine of_ite fun rest _ => ?_
  have hopen : Mode.between.step 34 = some ([], .string [] none) := rfl
  have hclose : (Mode.string value none).step 34 = some ([.string value], .between) := by
    simp [Mode.step]
  rw [show [34] ++ x ++ [34] ++ rest = 34 :: (x ++ 34 :: rest) by simp, lexFrom_step hopen, h rest,
    lexFrom_step hclose]
  split_ifs <;> simp [Function.comp_def]

/-- **A text of pieces is read as expected exactly when their conditions
hold.** -/
theorem lex_iff (h : Reads P x ts good) (hP : P []) : lex x = some ts ↔ good := by
  obtain ⟨o, hread, hgood, hbad⟩ := h
  have heq : lex x = o := by
    have := hread [] hP
    rw [List.append_nil] at this
    rw [lex, this]
    cases o <;> simp [lexFrom, Mode.finish]
  rw [heq]
  refine ⟨fun ho => ?_, hgood⟩
  by_contra hn
  exact Nat.lt_irrefl _ (hbad hn ts ho)

end Reads

/-! ### Commas -/

theorem separate_cons (ts : List Token) {more : List (List Token)} (h : more ≠ []) :
    separate (ts :: more) = ts ++ .comma :: separate more := by
  cases more with
  | nil => exact absurd rfl h
  | cons us more => rfl

end JsonText
