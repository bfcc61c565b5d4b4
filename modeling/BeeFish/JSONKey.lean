/-
# The ids of JSON nodes

A JSON node (Database/JSONPath.hpp) is known by its way up to the JSON root:
the keys of its parents, the first two of them the origin and the user. `toKey`
writes this way and the index of the node as a code, the id of the node, in the
letter case of the lower letters; from a node below an `{HTTP}` property it
goes up and starts again. `getIndexFromId` and `keyToString` read an id.

Key definitions: `JSONPath`, `toKey`, `getIndexFromId`, `keyToString`,
`JSONPath.toString`.
-/
import BeeFish.Tokenise

namespace BeeFish

/-! ### Types -/

/-- `Type` (Script/Type.hpp) -/
inductive JSONType where
  | undefined
  | user
  | null
  | boolean
  | integer
  | number
  | string
  | array
  | object
  deriving DecidableEq, Repr

namespace JSONType

def toIndex : JSONType → ℕ
  | undefined => 0
  | user => 1
  | null => 2
  | boolean => 3
  | integer => 4
  | number => 5
  | string => 6
  | array => 7
  | object => 8

/-- The type of a number; a number above is none of the types that are asked
for. -/
def ofIndex : ℕ → JSONType
  | 1 => user
  | 2 => null
  | 3 => boolean
  | 4 => integer
  | 5 => number
  | 6 => string
  | 7 => array
  | 8 => object
  | _ => undefined

theorem ofIndex_toIndex (type : JSONType) : ofIndex type.toIndex = type := by cases type <;> rfl

end JSONType

instance : Encoded JSONType where
  encode type := encode type.toIndex
  decode s := do
    let (index, s) ← (decode s : Option (ℕ × Stack))
    return (JSONType.ofIndex index, s)

instance : Encoded Bool where
  encode bit := encode bit.toNat
  decode s := do
    let (value, s) ← (decode s : Option (ℕ × Stack))
    return (value != 0, s)

theorem decode_type (type : JSONType) {s : Stack} {post : List Bool}
    (hs : s.rest = encode type ++ post) :
    decode s = some (type, s.advance (encode type)) := by
  show (do let (index, s) ← (decode s : Option (ℕ × Stack)); return (JSONType.ofIndex index, s)) = _
  rw [decode_index type.toIndex hs]
  exact congrArg some (congrArg (·, s.advance _) type.ofIndex_toIndex)

theorem decode_bool (bit : Bool) {s : Stack} {post : List Bool} (hs : s.rest = encode bit ++ post) :
    decode s = some (bit, s.advance (encode bit)) := by
  show (do let (value, s) ← (decode s : Option (ℕ × Stack)); return (value != 0, s)) = _
  rw [decode_index bit.toNat hs]
  cases bit <;> rfl

instance : LawfulEncoded JSONType where
  isCode type := LawfulEncoded.isCode type.toIndex
  decode_encode type _ _ hs _ := decode_type type hs

instance : LawfulEncoded Bool where
  isCode bit := LawfulEncoded.isCode bit.toNat
  decode_encode bit _ _ hs _ := decode_bool bit hs

/-! ### Nodes -/

/-- `BString::isDigitsOnly` -/
def BString.isDigitsOnly (s : BString) : Bool := !s.isEmpty && s.all fun c => 48 ≤ c && c ≤ 57

/-- A key of a node in its parent: a position in an array or a property of an
object. -/
inductive Component where
  | integer (position : ℕ)
  | string (property : BString)
  deriving DecidableEq, Repr

namespace Component

/-- The key that `JSONPath::parent` gives. -/
def text : Component → BString
  | integer position => BeeFish.text (toString position)
  | string property => property

def type : Component → JSONType
  | integer _ => .integer
  | string _ => .string

end Component

/-- A node, by its way up to the JSON root: the keys on the way, each with the
index of the node that it leads to, and the index of the root. -/
structure JSONPath where
  steps : List (Component × ℕ)
  root : ℕ
  deriving DecidableEq, Repr

namespace JSONPath

/-- The index of the node at the end of some steps. -/
def indexOf (root : ℕ) : List (Component × ℕ) → ℕ
  | [] => root
  | (_, index) :: _ => index

def index (path : JSONPath) : ℕ := indexOf path.root path.steps

def parent (path : JSONPath) : JSONPath := { path with steps := path.steps.tail }

def isRoot (path : JSONPath) : Bool := path.steps.isEmpty

/-- `JSONPath::isUserRoot`: the root, the origins and their users. -/
def isUserRoot (path : JSONPath) : Bool :=
  path.isRoot || path.parent.isRoot || path.parent.parent.isRoot

end JSONPath

/-! ### Writing an id -/

section

variable (L : Locale)

/-- What `toKey` makes of a property; none for `{HTTP}`. -/
def lowerKey (key : BString) : Option BString :=
  if key.isDigitsOnly then some (text "\"" ++ key ++ text "\"")
  else if L.toLower key = text "{http}" then none
  else some (L.toLower key)

/-- The bits of a component: there is one, its order, its type and its value. -/
def componentBits (order : ℕ) : Component → List Bool
  | .integer position => encode true ++ encode order ++ encode JSONType.integer ++ encode position
  | .string property => encode true ++ encode order ++ encode JSONType.string ++ encode property

/-- The end of `toKey`: the stack, no more components and the index. -/
def finishKey (index : ℕ) (stack : List Bool) : List Bool :=
  [true] ++ (stack ++ encode false ++ encode index) ++ [false]

/-- `JSONPath::toKey` from a node on the way, with the stack so far. -/
def toKeyFrom (root index : ℕ) : List (Component × ℕ) → List Bool → List Bool
  | [], stack => finishKey index stack
  | [_], stack => finishKey index (componentBits 1 (.string []) ++ stack)
  | [(userId, _), _], stack =>
    let order := if userId.text = text "public" then 2 else 0
    finishKey index (componentBits order (.string userId.text) ++ stack)
  | (key, _) :: holder :: user :: path, stack =>
    match key with
    | .integer position =>
      toKeyFrom root index (holder :: user :: path) (componentBits 0 (.integer position) ++ stack)
    | .string property =>
      match lowerKey L property with
      | some property =>
        toKeyFrom root index (holder :: user :: path) (componentBits 0 (.string property) ++ stack)
      -- the parent of the node that holds the property
      | none => toKeyFrom root (JSONPath.indexOf root (user :: path)) (user :: path) []

/-- `JSONPath::toKey` -/
def toKey (path : JSONPath) : List Bool := toKeyFrom L path.root path.index path.steps []

end

/-! ### Reading an id -/

/-- The loop of `getIndexFromId`. -/
def skipComponents : ℕ → ℕ → Bool → Stack → Option Stack
  | 0, _, _, _ => none
  | _ + 1, _, false, stack => some stack
  | fuel + 1, count, true, stack => do
    let count := count + 1
    let (_, stack) ← (decode stack : Option (ℕ × Stack))
    let (type, stack) ← (decode stack : Option (JSONType × Stack))
    let stack ←
      if count = 1 then do
        let (_, stack) ← (decode stack : Option (BString × Stack))
        pure stack
      else if type = .integer then do
        let (_, stack) ← (decode stack : Option (ℕ × Stack))
        pure stack
      else if type = .string then do
        let (_, stack) ← (decode stack : Option (BString × Stack))
        pure stack
      else pure stack
    let (next, stack) ← (decode stack : Option (Bool × Stack))
    skipComponents fuel count next stack

/-- The index at the end of an id; the assertion is that the bits end with
it. -/
def readIndex (stack : Stack) : Option ℕ := do
  let (index, stack) ← (decode stack : Option (ℕ × Stack))
  let (_, stack) := stack.readBit
  if stack.count = 0 then some index else none

/-- `JSONPath::getIndexFromId` -/
def getIndexFromId (id : List Bool) : Option ℕ := do
  let stack : Stack := ⟨id, 0, 0⟩
  let (_, stack) := stack.readBit
  let (next, stack) ← (decode stack : Option (Bool × Stack))
  let stack ← skipComponents (id.length + 1) 0 next stack
  readIndex stack

/-- Who is logged on, at which origin. -/
structure Authentication where
  userId : BString
  origin : BString

/-- The loop of `keyToString`, which ends at a first component that is not for
the user. -/
def readComponents (auth : Authentication) : ℕ → ℕ → Bool → BString → Stack →
    Option (BString × Stack)
  | 0, _, _, _, _ => none
  | _ + 1, _, false, string, stack => some (string, stack)
  | fuel + 1, count, true, string, stack => do
    let count := count + 1
    let (_, stack) ← (decode stack : Option (ℕ × Stack))
    let (type, stack) ← (decode stack : Option (JSONType × Stack))
    if count = 1 then do
      let (value, stack) ← (decode stack : Option (BString × Stack))
      let (next, stack) ← (decode stack : Option (Bool × Stack))
      if value = text "public" then readComponents auth fuel count next string stack
      else if value = auth.userId then
        readComponents auth fuel count next (string ++ text "my" ++ text "/") stack
      else return (string, stack)
    else do
      let (value, stack) ←
        if type = .integer then do
          let (index, stack) ← (decode stack : Option (ℕ × Stack))
          pure (text (toString index), stack)
        else if type = .string then (decode stack : Option (BString × Stack))
        else pure ([], stack)
      let (next, stack) ← (decode stack : Option (Bool × Stack))
      readComponents auth fuel count next (string ++ value ++ text "/") stack

/-- `JSONPath::keyToString`: the URL and the index; none where the assertion
fails. -/
def keyToString (auth : Authentication) (key : List Bool) : Option (BString × ℕ) := do
  let stack : Stack := ⟨key, 0, 0⟩
  let (_, stack) := stack.readBit
  let (next, stack) ← (decode stack : Option (Bool × Stack))
  let (string, stack) ← readComponents auth (key.length + 1) 0 next [] stack
  let index ← readIndex stack
  let string := string.dropLast
  let slash := if string.length ≠ 0 then text "/" else []
  return (auth.origin ++ slash ++ string ++ text "?index=" ++ text (toString index), index)

/-! ### The URL of a node -/

/-- `std::string::find` -/
def BString.find (pattern : BString) : BString → Option ℕ
  | [] => if pattern = [] then some 0 else none
  | c :: s => if pattern.isPrefixOf (c :: s) then some 0 else (BString.find pattern s).map (· + 1)

/-- The loop of `JSONPath::toString`, with the string so far; none for a node
of another user. -/
def urlFrom (userId : BString) (users : BString → Bool) : List (Component × ℕ) → BString →
    Option BString
  | [], string => some string
  | [(origin, _)], string => some (origin.text ++ text "/" ++ string)
  | (key, _) :: path, string =>
    if path.length = 1 ∧ key.text = text "public" then urlFrom userId users path string
    else if path.length = 1 ∧ key.text = userId then urlFrom userId users path
      (text "my" ++ text "/" ++ string)
    else if path.length = 1 ∧ users key.text then none
    else
      let key := if key.text ≠ text "my" ∧ key.type = .string ∧
        key.text.isDigitsOnly then text "\"" ++ key.text ++ text "\"" else key.text
      urlFrom userId users path (key ++ text "/" ++ string)

/-- `JSONPath::toString` -/
def JSONPath.toString (auth : Authentication) (users : BString → Bool)
    (path : JSONPath) : BString :=
  match urlFrom auth.userId users path.steps [] with
  | none => []
  | some string =>
    let string := string.dropLast
    match BString.find (text "{HTTP}") string with
    | some (position + 1) => string.take position
    | _ => string

/-! ### The components of an id -/

section

variable (L : Locale)

/-- The key is `{HTTP}`, in any letter case. -/
def isHttp : Component → Bool
  | .integer _ => false
  | .string property => (lowerKey L property).isNone

/-- Where `toKey` starts again. -/
def redirect : List (Component × ℕ) → Option (List (Component × ℕ))
  | (key, _) :: holder :: user :: path =>
    if isHttp L key then some (user :: path) else redirect (holder :: user :: path)
  | _ => none

/-- The steps of the node whose id `toKey` writes in the end. -/
def resolve : List (Component × ℕ) → List (Component × ℕ)
  | (key, index) :: holder :: user :: path =>
    if isHttp L key then resolve (user :: path)
    else if (redirect L (holder :: user :: path)).isSome then resolve (holder :: user :: path)
    else (key, index) :: holder :: user :: path
  | steps => steps

/-- The component of a key below the user. -/
def lowerComponent : Component → Component
  | .integer position => .integer position
  | .string property => .string ((lowerKey L property).getD [])

/-- The components of an id, with their orders. -/
def idComponents : List (Component × ℕ) → List (ℕ × Component)
  | [] => []
  | [_] => [(1, .string [])]
  | [(userId, _), _] => [(if userId.text = text "public" then 2 else 0, .string userId.text)]
  | (key, _) :: path => idComponents path ++ [(0, lowerComponent L key)]

/-- The bits of some components. -/
def componentsBits (components : List (ℕ × Component)) : List Bool :=
  components.flatMap fun component => componentBits component.1 component.2

/-- The bits of an id. -/
def idBits (components : List (ℕ × Component)) (index : ℕ) : List Bool :=
  finishKey index (componentsBits components)

end

variable {L : Locale} {root index : ℕ}

theorem componentsBits_append (cs ds : List (ℕ × Component)) :
    componentsBits (cs ++ ds) = componentsBits cs ++ componentsBits ds := List.flatMap_append

theorem toKeyFrom_eq : ∀ (steps : List (Component × ℕ)) (stack : List Bool),
    toKeyFrom L root index steps stack =
    match redirect L steps with
    | none => finishKey index (componentsBits (idComponents L steps) ++ stack)
    | some path => toKeyFrom L root (JSONPath.indexOf root path) path []
  | [], _ => rfl
  | [_], _ => by simp [toKeyFrom, redirect, idComponents, componentsBits]
  | [_, _], _ => by simp [toKeyFrom, redirect, idComponents, componentsBits]
  | (key, i) :: holder :: user :: path, stack => by
    have happend : componentsBits (idComponents L ((key, i) :: holder :: user :: path)) =
        componentsBits (idComponents L (holder :: user :: path)) ++ componentBits 0
          (lowerComponent L key) := by
      rw [idComponents, componentsBits_append]
      · simp [componentsBits]
      · simp
      · simp
    rw [redirect, happend]
    cases key with
    | integer position =>
      rw [toKeyFrom]
      simp only [isHttp, Bool.false_eq_true, if_false]
      rw [toKeyFrom_eq (holder :: user :: path)]
      simp [lowerComponent]
    | string property =>
      rw [toKeyFrom]
      cases hkey : lowerKey L property with
      | none => simp [isHttp, hkey]
      | some lower =>
        simp only [isHttp, hkey, Option.isNone_some, Bool.false_eq_true, if_false]
        rw [toKeyFrom_eq (holder :: user :: path)]
        simp [lowerComponent, hkey]

theorem resolve_of_none : ∀ {steps : List (Component × ℕ)}, redirect L steps = none →
    resolve L steps = steps
  | [], _ => rfl
  | [_], _ => rfl
  | [_, _], _ => rfl
  | (key, _) :: holder :: user :: path, h => by
    rw [redirect] at h
    split_ifs at h with hkey
    rw [resolve, if_neg hkey, if_neg (by simp [h])]

theorem resolve_of_some : ∀ {steps path : List (Component × ℕ)}, redirect L steps = some path →
    resolve L steps = resolve L path
  | (key, _) :: holder :: user :: path, _, h => by
    rw [redirect] at h
    rw [resolve]
    split_ifs at h with hkey
    · rw [if_pos hkey, ← Option.some.inj h]
    · rw [if_neg hkey, if_pos (by simp [h]), resolve_of_some h]

theorem redirect_length : ∀ {steps path : List (Component × ℕ)}, redirect L steps = some path →
    path.length < steps.length
  | (key, _) :: holder :: user :: path, _, h => by
    rw [redirect] at h
    split_ifs at h with hkey
    · rw [← Option.some.inj h]
      simp
    · exact (redirect_length h).trans (Nat.lt_succ_self _)

/-- `toKey` writes the id of the node where it ends. -/
theorem toKeyFrom_nil (root : ℕ) (steps : List (Component × ℕ)) :
    toKeyFrom L root (JSONPath.indexOf root steps) steps [] =
    idBits (idComponents L (resolve L steps)) (JSONPath.indexOf root (resolve L steps)) := by
  rw [toKeyFrom_eq]
  cases h : redirect L steps with
  | none => rw [resolve_of_none h, List.append_nil]; rfl
  | some path =>
    have := redirect_length h
    rw [resolve_of_some h]
    exact toKeyFrom_nil root path
termination_by steps.length

/-! ### Reading an id back -/

open BitCode

theorem closes_componentBits (order : ℕ) (c : Component) (v : List Bool) :
    Closes 1 (componentBits order c ++ v) ↔ Closes 1 v := by
  cases c with
  | integer position =>
    simp only [componentBits, List.append_assoc]
    rw [(LawfulEncoded.isCode true).closes_append Nat.one_pos,
      (LawfulEncoded.isCode order).closes_append Nat.one_pos,
      (LawfulEncoded.isCode JSONType.integer).closes_append Nat.one_pos,
      (LawfulEncoded.isCode position).closes_append Nat.one_pos]
  | string property =>
    simp only [componentBits, List.append_assoc]
    rw [(LawfulEncoded.isCode true).closes_append Nat.one_pos,
      (LawfulEncoded.isCode order).closes_append Nat.one_pos,
      (LawfulEncoded.isCode JSONType.string).closes_append Nat.one_pos,
      (LawfulEncoded.isCode property).closes_append Nat.one_pos]

theorem closes_componentsBits (v : List Bool) : ∀ components : List (ℕ × Component),
    Closes 1 (componentsBits components ++ v) ↔ Closes 1 v
  | [] => Iff.rfl
  | c :: cs => by
    rw [show componentsBits (c :: cs) = componentBits c.1 c.2 ++ componentsBits cs from rfl,
      List.append_assoc,
      closes_componentBits, closes_componentsBits v cs]

/-- An id is a code. -/
theorem isCode_idBits (components : List (ℕ × Component)) (index : ℕ) :
    IsCode (idBits components index) := by
  unfold idBits finishKey
  rw [List.append_assoc, List.singleton_append, IsCode, closes_true, List.append_assoc,
    List.append_assoc,
    closes_componentsBits, (LawfulEncoded.isCode false).closes_append Nat.one_pos,
    (LawfulEncoded.isCode index).closes_append Nat.one_pos]
  exact Or.inl ⟨rfl, rfl⟩

theorem isCode_toKey (L : Locale) (node : JSONPath) : BitCode.IsCode (toKey L node) := by
  unfold toKey JSONPath.index
  rw [toKeyFrom_nil]
  exact isCode_idBits _ _

/-- The id of a node as a key. -/
def JSONPath.key (L : Locale) (node : JSONPath) : Key := ⟨toKey L node, isCode_toKey L node⟩

/-- The components are read up to the index. -/
theorem skip_components :
    ∀ (components : List (ℕ × Component)) (fuel count : ℕ) (stack : Stack) (post : List Bool),
    components.length < fuel → (count = 0 → ∀ c ∈ components.head?, c.2.type = .string) →
    stack.rest = componentsBits components ++ (encode false ++ post) →
    (do
      let (next, stack) ← (decode stack : Option (Bool × Stack))
      skipComponents fuel count next stack) =
      some (stack.advance (componentsBits components ++ encode false))
  | _, 0, _, _, _, hf, _, _ => absurd hf (Nat.not_lt_zero _)
  | [], fuel + 1, count, stack, post, _, _, hs => by
    rw [decode_bool false hs]
    rfl
  | (order, c) :: cs, fuel + 1, count, stack, post, hf, h0, hs => by
    have hbits : componentsBits ((order, c) :: cs) = componentBits order c ++ componentsBits cs :=
      rfl
    have ih := fun {stack : Stack} => skip_components cs fuel (count + 1) stack post
      (by simpa using hf)
      (fun h => absurd h (Nat.succ_ne_zero _))
    rw [hbits] at hs ⊢
    cases c with
    | integer position =>
      have hcount : count + 1 ≠ 1 := fun h => nomatch h0 (Nat.succ.inj h) _ rfl
      simp only [componentBits, List.append_assoc] at hs ⊢
      have h1 := Stack.rest_advance hs
      have h2 := Stack.rest_advance h1
      have h3 := Stack.rest_advance h2
      have h4 := Stack.rest_advance h3
      rw [decode_bool true hs]
      simp only [Option.bind_eq_bind, Option.bind_some]
      rw [skipComponents, decode_index order h1]
      simp only [Option.bind_eq_bind, Option.bind_some]
      rw [decode_type .integer h2]
      simp only [Option.bind_some, if_neg hcount, if_true]
      rw [decode_index position h3]
      simp only [Option.bind_some]
      exact (ih h4).trans (by simp [Stack.advance_advance])
    | string property =>
      simp only [componentBits, List.append_assoc] at hs ⊢
      have h1 := Stack.rest_advance hs
      have h2 := Stack.rest_advance h1
      have h3 := Stack.rest_advance h2
      have h4 := Stack.rest_advance h3
      have hvalue :
        (decode (((stack.advance (encode true)).advance (encode order)).advance
        (encode JSONType.string)) :
          Option (BString × Stack)) = _ := decode_string property h3
      rw [decode_bool true hs]
      simp only [Option.bind_eq_bind, Option.bind_some]
      rw [skipComponents, decode_index order h1]
      simp only [Option.bind_eq_bind, Option.bind_some]
      rw [decode_type .string h2]
      simp only [Option.bind_some]
      rw [hvalue]
      by_cases hcount : count + 1 = 1
      · simp only [if_pos hcount, Option.bind_some]
        exact (ih h4).trans (by simp [Stack.advance_advance])
      · simp only [if_neg hcount, Option.bind_some]
        exact (ih h4).trans (by simp [Stack.advance_advance])

/-- The first component is a string, the user. -/
def FirstString (components : List (ℕ × Component)) : Prop :=
  ∀ c ∈ components.head?, c.2.type = .string

theorem firstString_idComponents :
    ∀ steps : List (Component × ℕ), FirstString (idComponents L steps)
  | [] => nofun
  | [_] => fun c hc => by obtain rfl := Option.some.inj hc; rfl
  | [_, _] => fun c hc => by obtain rfl := Option.some.inj hc; rfl
  | (key, i) :: holder :: user :: path => by
    have ih := firstString_idComponents (holder :: user :: path)
    have happend : idComponents L ((key, i) :: holder :: user :: path) =
        idComponents L (holder :: user :: path) ++ [(0, lowerComponent L key)] := by
      rw [idComponents] <;> simp
    obtain ⟨c, cs, hc⟩ : ∃ c cs, idComponents L (holder :: user :: path) = c :: cs := by
      refine List.exists_cons_of_ne_nil ?_
      cases path <;> simp [idComponents]
    rw [happend, hc]
    rw [hc] at ih
    exact ih

theorem readBit_idBits (components : List (ℕ × Component)) (index : ℕ) :
    (⟨idBits components index, 0, 0⟩ : Stack).readBit =
      (true, (⟨idBits components index, 0, 0⟩ : Stack).advance [true]) ∧
      ((⟨idBits components index, 0, 0⟩ : Stack).advance [true]).rest =
        componentsBits components ++ (encode false ++ (encode index ++ [false])) := by
  have hs : (⟨idBits components index, 0, 0⟩ : Stack).rest =
      true :: (componentsBits components ++ (encode false ++ (encode index ++ [false]))) := by
    simp [Stack.rest, idBits, finishKey]
  exact ⟨Stack.readBit_of_rest hs, Stack.rest_advance_cons hs⟩

/-- At the end of an id is its index. -/
theorem readIndex_end (components : List (ℕ × Component)) (index : ℕ) :
    readIndex ((⟨idBits components index, 0, 0⟩ : Stack).advance
      ([true] ++ (componentsBits components ++ encode false))) =
      some index := by
  have hid :
      idBits components index =
        ([true] ++ (componentsBits components ++ encode false)) ++ (encode index ++ [false]) := by
    simp [idBits, finishKey]
  have hs := Stack.rest_advance (s := ⟨idBits components index, 0, 0⟩) hid
  have h1 := Stack.rest_advance hs
  have hcount := height_closes (isCode_idBits components index)
  unfold readIndex
  rw [decode_index index hs]
  simp only [Option.bind_eq_bind, Option.bind_some]
  rw [Stack.readBit_of_rest h1]
  rw [hid] at hcount
  simp only [Stack.advance_advance, Stack.advance_count, List.append_assoc] at hcount ⊢
  rw [if_pos hcount]

/-- Inside an id there is no index. -/
theorem readIndex_inside {components : List (ℕ × Component)} {index : ℕ} (order : ℕ)
    {u v : List Bool}
    (hid : idBits components index = u ++ (encode order ++ (true :: v))) :
    readIndex ((⟨idBits components index, 0, 0⟩ : Stack).advance u) = none := by
  have hs := Stack.rest_advance (s := ⟨idBits components index, 0, 0⟩) hid
  have h1 := Stack.rest_advance hs
  have hpos : 0 < height 0 (u ++ (encode order ++ [true])) := by
    refine height_pos_of_stays _ 0 ?_ (Or.inr (by simp))
    refine (isCode_idBits components index).stays_of_isPrefix ⟨v, by simp [hid]⟩ ?_
    intro heq
    have hlast : (idBits components index).getLast? = some false := List.getLast?_concat ..
    rw [← heq, ← List.append_assoc, List.getLast?_concat] at hlast
    cases hlast
  unfold readIndex
  rw [decode_index order hs]
  simp only [Option.bind_eq_bind, Option.bind_some]
  rw [Stack.readBit_of_rest h1]
  simp only [Stack.advance_advance, Stack.advance_count, List.append_assoc]
  rw [if_neg hpos.ne']

theorem length_componentsBits : ∀ components : List (ℕ × Component),
    components.length ≤ (componentsBits components).length
  | [] => Nat.le_refl _
  | (order, c) :: cs => by
    have hbits : componentsBits ((order, c) :: cs) = componentBits order c ++ componentsBits cs :=
      rfl
    have hpos : 0 < (componentBits order c).length := by cases c <;> simp [componentBits, encode]
    have ih := length_componentsBits cs
    rw [hbits, List.length_append, List.length_cons]
    omega

theorem length_idBits (components : List (ℕ × Component)) (index : ℕ) :
    components.length < (idBits components index).length + 1 := by
  have h := length_componentsBits components
  simp only [idBits, finishKey, List.length_append]
  omega

theorem getIndexFromId_idBits {components : List (ℕ × Component)} (index : ℕ)
    (h : FirstString components) :
    getIndexFromId (idBits components index) = some index := by
  obtain ⟨hbit, hs⟩ := readBit_idBits components index
  have hskip := skip_components components _ 0 _ _ (length_idBits components index) (fun _ => h) hs
  unfold getIndexFromId
  simp only [hbit]
  rw [← bind_assoc, hskip, Stack.advance_advance]
  exact readIndex_end components index

/-- The text of the components after the first. -/
def textOf (components : List (ℕ × Component)) : BString :=
  components.flatMap fun c => c.2.text ++ text "/"

theorem read_components (auth : Authentication) :
    ∀ (components : List (ℕ × Component)) (fuel count : ℕ) (string : BString)
    (stack : Stack) (post : List Bool), components.length < fuel → count ≠ 0 →
    stack.rest = componentsBits components ++ (encode false ++ post) →
    (do
      let (next, stack) ← (decode stack : Option (Bool × Stack))
      readComponents auth fuel count next string stack) =
      some (string ++ textOf components, stack.advance (componentsBits components ++ encode false))
  | _, 0, _, _, _, _, hf, _, _ => absurd hf (Nat.not_lt_zero _)
  | [], fuel + 1, count, string, stack, post, _, _, hs => by
    rw [decode_bool false hs]
    simp [readComponents, textOf, componentsBits]
  | (order, c) :: cs, fuel + 1, count, string, stack, post, hf, h0, hs => by
    have hbits : componentsBits ((order, c) :: cs) = componentBits order c ++ componentsBits cs :=
      rfl
    have htext : textOf ((order, c) :: cs) = c.text ++ text "/" ++ textOf cs := rfl
    have ih := fun {stack : Stack} => read_components auth cs fuel (count + 1)
      (string ++ c.text ++ text "/") stack
      post (by simpa using hf) (Nat.succ_ne_zero _)
    have hcount : count + 1 ≠ 1 := fun h => h0 (Nat.succ.inj h)
    rw [hbits] at hs ⊢
    rw [htext]
    cases c with
    | integer position =>
      simp only [componentBits, List.append_assoc] at hs ⊢
      have h1 := Stack.rest_advance hs
      have h2 := Stack.rest_advance h1
      have h3 := Stack.rest_advance h2
      have h4 := Stack.rest_advance h3
      rw [decode_bool true hs]
      simp only [Option.bind_eq_bind, Option.bind_some]
      rw [readComponents, decode_index order h1]
      simp only [Option.bind_eq_bind, Option.bind_some]
      rw [decode_type .integer h2]
      simp only [Option.bind_some, if_neg hcount, if_true]
      rw [decode_index position h3]
      exact (ih h4).trans (by simp [Stack.advance_advance])
    | string property =>
      simp only [componentBits, List.append_assoc] at hs ⊢
      have h1 := Stack.rest_advance hs
      have h2 := Stack.rest_advance h1
      have h3 := Stack.rest_advance h2
      have h4 := Stack.rest_advance h3
      have hvalue :
        (decode (((stack.advance (encode true)).advance (encode order)).advance
        (encode JSONType.string)) :
          Option (BString × Stack)) = _ := decode_string property h3
      rw [decode_bool true hs]
      simp only [Option.bind_eq_bind, Option.bind_some]
      rw [readComponents, decode_index order h1]
      simp only [Option.bind_eq_bind, Option.bind_some]
      rw [decode_type .string h2]
      simp only [Option.bind_some, if_neg hcount, if_true, reduceCtorEq, if_false]
      rw [hvalue]
      exact (ih h4).trans (by simp [Stack.advance_advance])

/-- A component starts with a one, its order and another code. -/
theorem componentBits_eq (order : ℕ) (c : Component) :
    ∃ v, componentBits order c = encode true ++ (encode order ++ true :: v) := by
  cases c with
  | integer position =>
    exact ⟨write JSONType.integer.toIndex ++ encode position, by simp [componentBits, encode]⟩
  | string property =>
    exact ⟨write JSONType.string.toIndex ++ encode property, by simp [componentBits, encode]⟩

/-- After the first component the reading goes on if it is for the user. -/
theorem read_first (auth : Authentication) (order : ℕ) (value : BString) (cs : List (ℕ × Component))
    (fuel : ℕ) {stack : Stack}
    {post : List Bool} (hf : cs.length < fuel)
    (hs : stack.rest = componentBits order (.string value) ++
      (componentsBits cs ++ (encode false ++ post))) :
    (do
      let (next, stack) ← (decode stack : Option (Bool × Stack))
      readComponents auth (fuel + 1) 0 next [] stack) =
      if value = text "public" ∨ value = auth.userId then
        some ((if value = text "public" then [] else text "my" ++ text "/") ++ textOf cs,
          stack.advance
            (componentBits order (.string value) ++ (componentsBits cs ++ encode false)))
      else some ([],
        stack.advance (componentBits order (.string value) ++ encode !cs.isEmpty)) := by
  simp only [componentBits, List.append_assoc] at hs ⊢
  have h1 := Stack.rest_advance hs
  have h2 := Stack.rest_advance h1
  have h3 := Stack.rest_advance h2
  have h4 := Stack.rest_advance h3
  have hvalue :
    (decode (((stack.advance (encode true)).advance (encode order)).advance
    (encode JSONType.string)) :
      Option (BString × Stack)) = _ := decode_string value h3
  rw [decode_bool true hs]
  simp only [Option.bind_eq_bind, Option.bind_some]
  rw [readComponents, decode_index order h1]
  simp only [Option.bind_eq_bind, Option.bind_some]
  rw [decode_type .string h2]
  simp only [Option.bind_some, if_true, Nat.zero_add]
  rw [hvalue]
  by_cases hpublic : value = text "public"
  · simp only [hpublic, Option.bind_some, if_true, true_or, List.nil_append]
    rw [hpublic] at h4
    exact (read_components auth cs fuel 1 [] _ _ hf Nat.one_ne_zero h4).trans
      (by simp [Stack.advance_advance])
  · by_cases huser : value = auth.userId
    · subst huser
      simp only [Option.bind_some, if_neg hpublic, or_true, if_true, List.nil_append]
      exact (read_components auth cs fuel 1 _ _ _ hf Nat.one_ne_zero h4).trans
        (by simp [Stack.advance_advance])
    · have hnext : ∀ {s : Stack}, s.rest = componentsBits cs ++ (encode false ++ post) →
          (decode s : Option (Bool × Stack)) =
            some (!cs.isEmpty, s.advance (encode !cs.isEmpty)) := by
        intro s h4
        cases cs with
        | nil => exact decode_bool false h4
        | cons c cs =>
          obtain ⟨v, hv⟩ := componentBits_eq c.1 c.2
          have hbits :
              componentsBits (c :: cs) =
                encode true ++ (encode c.1 ++ true :: v) ++ componentsBits cs :=
            congrArg (· ++ componentsBits cs) hv
          rw [hbits, List.append_assoc, List.append_assoc] at h4
          exact decode_bool true h4
      have hnone : ¬ (value = text "public" ∨ value = auth.userId) := not_or.mpr ⟨hpublic, huser⟩
      simp only [Option.bind_some, if_neg hpublic, if_neg huser]
      rw [hnext h4, if_neg hnone]
      simp [Stack.advance_advance]

/-- `keyToString` of an id whose components are read. -/
theorem keyToString_of_read {auth : Authentication} {components : List (ℕ × Component)} {index : ℕ}
    {string : BString}
    {u : List Bool} (hread : (do
      let (next, stack)
        ← (decode ((⟨idBits components index, 0, 0⟩ : Stack).advance [true]) : Option
          (Bool × Stack))
      readComponents auth ((idBits components index).length + 1) 0 next [] stack) =
        some (string, (⟨idBits components index, 0, 0⟩ : Stack).advance u)) :
    (keyToString auth (idBits components index)).map Prod.snd =
      readIndex ((⟨idBits components index, 0, 0⟩ : Stack).advance u) := by
  unfold keyToString
  simp only [(readBit_idBits components index).1]
  rw [← bind_assoc, hread]
  simp only [Option.bind_eq_bind, Option.bind_some]
  cases readIndex ((⟨idBits components index, 0, 0⟩ : Stack).advance u) <;> rfl

/-- An id is read to its end exactly when it has one component at most, or the
first one is for the user. -/
theorem keyToString_idBits (auth : Authentication) {components : List (ℕ × Component)} (index : ℕ)
    (h : FirstString components) : (keyToString auth (idBits components index)).map Prod.snd =
      if components.length ≤ 1 ∨ ∀ c ∈ components.head?, c.2.text = text "public" ∨
        c.2.text = auth.userId then some index
      else none := by
  obtain ⟨-, hs⟩ := readBit_idBits components index
  cases components with
  | nil =>
    rw [if_pos (Or.inl (show [].length ≤ 1 from Nat.zero_le 1)), ← readIndex_end]
    have hread : (do
        let (next, stack) ← (decode ((⟨idBits [] index, 0, 0⟩ : Stack).advance [true]) : Option
          (Bool × Stack))
        readComponents auth ((idBits [] index).length + 1) 0 next [] stack) =
          some ([], (⟨idBits [] index, 0, 0⟩ : Stack).advance ([true] ++ encode false)) := by
      rw [decode_bool false hs, ← Stack.advance_advance]
      rfl
    exact keyToString_of_read hread
  | cons c cs =>
    obtain ⟨order, c⟩ := c
    obtain ⟨value, rfl⟩ : ∃ value, c = .string value := by
      cases c with
      | integer position => exact absurd (h _ rfl) (by simp [Component.type])
      | string value => exact ⟨value, rfl⟩
    have hbits : componentsBits ((order, .string value) :: cs) = componentBits order
      (.string value) ++ componentsBits cs := rfl
    have hlen := length_idBits ((order, .string value) :: cs) index
    rw [List.length_cons] at hlen
    rw [hbits, List.append_assoc] at hs
    have hread := read_first auth order value cs _ (Nat.lt_of_succ_lt_succ hlen) hs
    rw [Stack.advance_advance, Stack.advance_advance] at hread
    by_cases hfirst : value = text "public" ∨ value = auth.userId
    · rw [if_pos hfirst] at hread
      rw [if_pos (Or.inr fun c hc => by obtain rfl := Option.some.inj hc; exact hfirst),
        ← readIndex_end, hbits, List.append_assoc]
      exact keyToString_of_read hread
    · rw [if_neg hfirst] at hread
      rw [keyToString_of_read hread]
      cases cs with
      | nil =>
        rw [if_pos (Or.inl (show [(order, Component.string value)].length ≤ 1 from Nat.le_refl 1)),
          ← readIndex_end, hbits]
        simp [componentsBits]
      | cons d ds =>
        rw [if_neg ?_]
        · obtain ⟨v, hv⟩ := componentBits_eq d.1 d.2
          refine readIndex_inside d.1 (v := v ++ componentsBits ds ++ encode false ++
            encode index ++ [false]) ?_
          have hd :
              componentsBits (d :: ds) =
                encode true ++ (encode d.1 ++ true :: v) ++ componentsBits ds :=
            congrArg (· ++ componentsBits ds) hv
          simp [idBits, finishKey, hbits, hd]
        · rintro (hle | hall)
          · simp at hle
          · exact hfirst (hall _ rfl)

/-! ### The node of an id -/

theorem length_idComponents : ∀ steps : List (Component × ℕ),
    (idComponents L steps).length =
      if steps.length ≤ 1 then steps.length else steps.length - 1
  | [] => rfl
  | [_] => rfl
  | [_, _] => rfl
  | (key, i) :: holder :: user :: path => by
    have happend : idComponents L ((key, i) :: holder :: user :: path) =
        idComponents L (holder :: user :: path) ++ [(0, lowerComponent L key)] := by
      rw [idComponents] <;> simp
    rw [happend, List.length_append, length_idComponents (holder :: user :: path)]
    simp

/-- The user of a node, if there is one on its way. -/
def JSONPath.userId? (steps : List (Component × ℕ)) : Option BString :=
  (steps.reverse[1]?).map fun step => step.1.text

theorem head?_idComponents : ∀ {steps : List (Component × ℕ)}, 2 ≤ steps.length →
    (idComponents L steps).head?.map (fun c => c.2.text) = JSONPath.userId? steps
  | [_, _], _ => rfl
  | (key, i) :: holder :: user :: path, _ => by
    have happend : idComponents L ((key, i) :: holder :: user :: path) =
        idComponents L (holder :: user :: path) ++ [(0, lowerComponent L key)] := by
      rw [idComponents] <;> simp
    have ih : (idComponents L (holder :: user :: path)).head?.map (fun c => c.2.text) =
      JSONPath.userId? (holder :: user :: path) :=
      head?_idComponents (by simp)
    have hlen : 1 < (holder :: user :: path).reverse.length := by simp
    have huser : JSONPath.userId? ((key, i) :: holder :: user :: path) = JSONPath.userId?
      (holder :: user :: path) := by
      unfold JSONPath.userId?
      rw [List.reverse_cons, List.getElem?_append_left hlen]
    obtain ⟨c, cs, hc⟩ : ∃ c cs, idComponents L (holder :: user :: path) = c :: cs := by
      refine List.exists_cons_of_ne_nil fun h0 => ?_
      have := length_idComponents (L := L) (holder :: user :: path)
      rw [h0] at this
      simp at this
    rw [happend, huser, ← ih, hc]
    rfl

/-- The node of an id is on the way of the node that it is made for. -/
theorem resolve_isSuffix : ∀ steps : List (Component × ℕ), resolve L steps <:+ steps
  | [] => List.suffix_rfl
  | [_] => List.suffix_rfl
  | [_, _] => List.suffix_rfl
  | (key, i) :: holder :: user :: path => by
    rw [resolve]
    split_ifs
    · exact (resolve_isSuffix (user :: path)).trans ⟨[(key, i), holder], rfl⟩
    · exact (resolve_isSuffix (holder :: user :: path)).trans ⟨[(key, i)], rfl⟩
    · exact List.suffix_rfl

theorem userId?_of_isSuffix {steps path : List (Component × ℕ)} (h : path <:+ steps)
    (hlen : 2 ≤ path.length) :
    JSONPath.userId? path = JSONPath.userId? steps := by
  obtain ⟨pre, rfl⟩ := h
  unfold JSONPath.userId?
  rw [List.reverse_append, List.getElem?_append_left (by rw [List.length_reverse]; exact hlen)]

theorem getIndexFromId_eq (L : Locale) (path : JSONPath) :
    getIndexFromId (toKey L path) = some (JSONPath.indexOf path.root (resolve L path.steps)) := by
  unfold toKey JSONPath.index
  rw [toKeyFrom_nil, getIndexFromId_idBits _ (firstString_idComponents _)]

theorem keyToString_eq (L : Locale) (auth : Authentication) (path : JSONPath) :
    (keyToString auth (toKey L path)).map Prod.snd =
    if (resolve L path.steps).length ≤ 2 ∨ ∀ user ∈ JSONPath.userId? path.steps,
      user = text "public" ∨ user = auth.userId then
      some (JSONPath.indexOf path.root (resolve L path.steps))
    else none := by
  unfold toKey JSONPath.index
  rw [toKeyFrom_nil, keyToString_idBits auth _ (firstString_idComponents _), length_idComponents]
  refine if_congr ?_ rfl rfl
  by_cases hlen : (resolve L path.steps).length ≤ 2
  · refine iff_of_true (Or.inl ?_) (Or.inl hlen)
    split_ifs <;> omega
  · have hcount : ¬ (if (resolve L path.steps).length ≤ 1 then (resolve L path.steps).length
        else (resolve L path.steps).length - 1) ≤ 1 := by
      split_ifs <;> omega
    have hlen' : 2 ≤ (resolve L path.steps).length := by omega
    rw [or_iff_right hcount, or_iff_right hlen, ← userId?_of_isSuffix
      (resolve_isSuffix path.steps) hlen',
      ← head?_idComponents (L := L) hlen']
    cases (idComponents L (resolve L path.steps)).head? <;> simp

end BeeFish
