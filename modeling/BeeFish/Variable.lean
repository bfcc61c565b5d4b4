/-
# Variables

`Variable` (Script/Variable.hpp) and how it is written. The commas of an array
come with the line breaks, so without blank space its elements stand one after
another. An object leaves out its undefined members but not the commas after
them.

A `std::map` is the list of its entries in the order of the keys. Numbers that
are not integers are floating point and left out.

Key definitions: `Variable`, `Variable.write`, `Variable.Valid`, `Variable.Readable`.
-/
import BeeFish.Escape
import BeeFish.URL
import Mathlib.Data.PNat.Defs

namespace BeeFish

open BString

inductive Variable where
  | undefined
  | null
  | boolean (boolean : Bool)
  | integer (integer : UInt64)
  | string (string : BString)
  | array (elements : List Variable)
  | object (members : List (BString × Variable))

/-- The entries of a `std::map`. -/
abbrev Members := List (BString × Variable)

/-- `(*object)[key] = value` -/
def Members.set (key : BString) (value : Variable) : Members → Members
  | [] => [(key, value)]
  | (k, v) :: members =>
    if k = key then (k, value) :: members
    else if key < k then (key, value) :: (k, v) :: members
    else (k, v) :: set key value members

namespace Variable

def isUndefined : Variable → Bool
  | undefined => true
  | _ => false

def isInteger : Variable → Bool
  | integer _ => true
  | _ => false

/-! ### Writing -/

/-- `std::string(tabs * TAB_SPACES, ' ')` -/
def tabs (count : ℕ) : BString := List.replicate (count * 3) 32

section

variable (blankSpace : Bool)

mutual

/-- `Variable::write` -/
def write : Variable → ℕ → BString
  | undefined, _ => text "undefined"
  | null, _ => text "null"
  | boolean b, _ => if b then text "true" else text "false"
  | integer n, _ => text (toString n.toNat)
  | string s, _ => [34] ++ s.escape ++ [34]
  | array elements, tabIndex =>
    let many := decide (1 < elements.length)
    let tabIndex := if many then tabIndex + 1 else tabIndex
    text "[" ++ (if many ∧ blankSpace then text "\r\n" else []) ++
      writeElements many elements tabIndex ++
      (if many ∧ blankSpace then text "\r\n" ++ tabs (tabIndex - 1) else []) ++ text "]"
  | object members, tabIndex => writeObject members (tabIndex + 1)

/-- The loop over the elements. -/
def writeElements (many : Bool) : List Variable → ℕ → BString
  | [], _ => []
  | element :: elements, tabIndex =>
    (if many ∧ blankSpace then tabs tabIndex else []) ++ write element tabIndex ++
      (if elements ≠ [] ∧ blankSpace then text ",\r\n" else []) ++
        writeElements many elements tabIndex

/-- `Object::write` -/
def writeObject (members : Members) (count : ℕ) : BString :=
  match members with
  | [] => text "\x7b\x7d"
  | member :: members =>
    let count := if count = 0 then count + 1 else count
    text "\x7b" ++ (if blankSpace then text "\r\n" else []) ++
      writeMembers (member :: members) count ++
      (if blankSpace then text "\r\n" else []) ++
      (if 0 < count - 1 ∧ blankSpace then tabs (count - 1) else []) ++ text "\x7d"

/-- The loop over the members. -/
def writeMembers : Members → ℕ → BString
  | [], _ => []
  | (key, value) :: members, count =>
    (if value.isUndefined then []
      else (if 0 < count ∧ blankSpace then tabs count else []) ++
        text "\"" ++ key.escape ++ text "\":" ++
        (if blankSpace then text " " else []) ++ write value count) ++
      (if members ≠ [] then text "," ++ (if blankSpace then text "\r\n" else []) else []) ++
        writeMembers members count

end

/-- `Variable::str` -/
def str (v : Variable) : BString := v.write blankSpace 0

end

/-! ### Values -/

mutual

/-- Strings of whole characters, and the keys of each object in their order. -/
def Valid : Variable → Prop
  | string s => Whole s
  | array elements => ValidElements elements
  | object members => (members.map Prod.fst).Pairwise (· < ·) ∧ ValidMembers members
  | _ => True

def ValidElements : List Variable → Prop
  | [] => True
  | element :: elements => Valid element ∧ ValidElements elements

def ValidMembers : Members → Prop
  | [] => True
  | (key, value) :: members => Whole key ∧ Valid value ∧ ValidMembers members

end

mutual

/-- The value without its undefined members. -/
def defined : Variable → Variable
  | array elements => array (definedElements elements)
  | object members => object (definedMembers members)
  | v => v

def definedElements : List Variable → List Variable
  | [] => []
  | element :: elements => defined element :: definedElements elements

def definedMembers : Members → Members
  | [] => []
  | (key, value) :: members =>
    if value.isUndefined then definedMembers members
    else (key, defined value) :: definedMembers members

end

/-- No member but the last one is undefined. -/
def LastUndefined (members : Members) : Prop :=
  ∀ member ∈ members.dropLast, member.2.isUndefined = false

section

variable (pageSize : ℕ+) (blankSpace : Bool)

mutual

/-- Integers that are a `long`, strings and keys of a page, only the last member
of an object undefined, and without blank space no second element. -/
def Readable : Variable → Prop
  | integer n => n.toNat < 2 ^ 63
  | string s => s.length ≤ pageSize
  | array elements => (blankSpace = true ∨ elements.length ≤ 1) ∧ ReadableElements elements
  | object members => LastUndefined members ∧ ReadableMembers members
  | _ => True

def ReadableElements : List Variable → Prop
  | [] => True
  | element :: elements => Readable element ∧ ReadableElements elements

def ReadableMembers : Members → Prop
  | [] => True
  | (key, value) :: members =>
    (value.isUndefined = false → key.length ≤ pageSize ∧ Readable value) ∧ ReadableMembers members

end

end

end Variable

end BeeFish
