/-
# JSON nodes in the file

A `JSONPath` (Database/JSONPath.hpp) is a path of the trie below the JSON path
of its database. Below a node stand its data, the type; its value or the pages
of its string; its children by their positions; and, for an object, two tables
between the positions of its properties and the indices of their names in the
properties of the database.

A program on the file throws or runs out of fuel where it is none. The way of
a node up to the JSON root is read from the file by `parent`; the id of the
node is written from it. Every word of a string or a property name has under
it a count for each of its nodes and their ancestors.

Key definitions: `JSONDatabase`, `JSON.parentKey`, `JSON.way`, `JSON.id`,
`JSON.addWords`, `JSON.getObjectPropertyPosition`.
-/
import BeeFish.Path
import BeeFish.PathBase
import BeeFish.JSONKey
import Mathlib.Data.Nat.Digits.Defs

namespace BeeFish

/-! ### Programs on the file -/

abbrev DatabaseM := StateT Database Option

/-- What is returned with a file as it is. -/
theorem pure_apply {α : Type} (a : α) (db : Database) : (pure a : DatabaseM α) db = some (a, db) :=
  rfl

/-- What is read from the file. -/
def look {α : Type} (f : Database → α) : DatabaseM α := fun db => some (f db, db)

/-- A change of the file, with its answer. -/
def change {α : Type} (f : Database → α × Database) : DatabaseM α := fun db => some (f db)

/-- A change of the file that can fail. -/
def attempt (f : Database → Option Database) : DatabaseM Unit :=
  fun db => (f db).map fun db => ((), db)

/-- A loop that goes up in the file. -/
def upwards {α : Type} (f : ℕ → DatabaseM α) : DatabaseM α := fun db => f (Path.depth db) db

/-- `PathBase::next(stack, item)` on the file as it is now. -/
def Walk.nextNow {σ α : Type} [PathBase σ] [Encoded α] (fuel : ℕ) (c : Walk σ) :
    DatabaseM (Option α × Walk σ) :=
  fun db =>
  (Walk.nextItem fuel { c with db := db }).map fun (item, c) => ((item, c), c.db)

/-! ### Data -/

/-- What `setData` and `getData` of a type store, its bytes. -/
class Stored (α : Type) where
  toData : α → BString
  ofData : BString → α

export Stored (toData ofData)

/-- The eight bytes of an index; more if it needs them. -/
instance : Stored ℕ where
  toData value := (Nat.digits 256 value).map UInt8.ofNat ++ List.replicate
    (8 - (Nat.digits 256 value).length) 0
  ofData data := Nat.ofDigits 256 (data.map UInt8.toNat)

theorem ofData_toData (value : ℕ) : (ofData (toData value) : ℕ) = value := by
  have hdigits :
      ((Nat.digits 256 value).map UInt8.ofNat).map UInt8.toNat = Nat.digits 256 value := by
    rw [List.map_map]
    conv_rhs => rw [← List.map_id (Nat.digits 256 value)]
    refine List.map_congr_left fun d hd => ?_
    have hlt : d < 256 := Nat.digits_lt_base (by norm_num) hd
    simp [Nat.mod_eq_of_lt hlt]
  show Nat.ofDigits 256
    (((Nat.digits 256 value).map UInt8.ofNat ++ List.replicate _ 0).map UInt8.toNat) = value
  rw [List.map_append, hdigits, List.map_replicate]
  exact (Nat.ofDigits_append_replicate_zero _).trans (Nat.ofDigits_digits 256 value)

/-- The four bytes of a type. -/
instance : Stored JSONType where
  toData type := [UInt8.ofNat type.toIndex, 0, 0, 0]
  ofData data := JSONType.ofIndex (Nat.ofDigits 256 ((data.take 4).map UInt8.toNat))

instance : Stored Bool where
  toData bit := [UInt8.ofNat bit.toNat]
  ofData data := data.head? != some 0

instance : Stored BString where
  toData data := data
  ofData data := data

namespace Path

/-- `path[key]` -/
def walk (path : Path) (key : Key) : DatabaseM Path := change fun db => Path.get db path key

/-- `Path::hasData()` -/
def hasDataNow (path : Path) : DatabaseM Bool := look (Path.hasData · path)

/-- `Path::getData<T>()` -/
def getDataAs (α : Type) [Stored α] (path : Path) : DatabaseM α :=
  look fun db => ofData (Path.getData db path)

/-- `Path::setData<T>(source)` -/
def setDataTo {α : Type} [Stored α] (path : Path) (source : α) : DatabaseM Unit := do
  let _ ← change fun db => Path.setData db path (toData source)

/-- `Path::isDeadEnd()` -/
def isDeadEndNow (path : Path) : DatabaseM Bool := look (Path.isDeadEnd · path)

/-- `Path::contains(key)` -/
def containsNow (path : Path) (key : Key) : DatabaseM Bool := look (Path.contains · path key)

/-- `Path::clear()` -/
def clearNow (path : Path) : DatabaseM Unit := attempt (Path.clear · path)

/-- `Path::clear(key)` -/
def clearKeyNow (path : Path) (key : Key) : DatabaseM Unit := attempt (Path.clearKey · path key)

/-- `Path::operator ++ ()` of a count that stays in an `Index`
(`preIncrement_eq_increment`). -/
def increment (path : Path) : DatabaseM ℕ := do
  let count ← (do if ← path.hasDataNow then return (← path.getDataAs ℕ) + 1 else return 1)
  path.setDataTo count
  return count

/-- `Path::operator -- ()` -/
def preDecrement (path : Path) : DatabaseM ℕ := do
  let count ← (do
    if ← path.hasDataNow then
      let count ← path.getDataAs ℕ
      return if count > 0 then count - 1 else count
    else return 0)
  path.setDataTo count
  return count

theorem ite_pred (count : ℕ) : (if count > 0 then count - 1 else count) = count - 1 := by
  split_ifs <;> omega

/-- The loop of `Path::parent(stack)`: the bits on the way up. -/
def parentFrom (rootIndex : ℕ) (db : Database) : ℕ → ℕ → ℤ → List Bool → Option (ℕ × List Bool)
  | 0, _, _, _ => none
  | fuel + 1, index, count, stack =>
    let up := (db.getBranch index).parent
    let parent := db.getBranch up
    let (count, stack) :=
      if index = parent.left then (count + 1, stack ++ [false])
      else if index = parent.right then (count - 1, stack ++ [true])
      else (count, stack)
    if count ≠ 0 ∧ up ≠ rootIndex ∧ up ≠ 0 then parentFrom rootIndex db fuel up count stack
    else some (up, stack.reverse)

/-- `Path::parent(value)`; none where there is no value. -/
def parentValue (α : Type) [Encoded α] (rootIndex : ℕ) (path : Path) : DatabaseM (α × Path) :=
  fun db => do
  let (index, stack) ← parentFrom rootIndex db (depth db) path.index 0 []
  let (value, _) ← (decode ⟨stack, 0, 0⟩ : Option (α × Stack))
  return ((value, ⟨index, 0⟩), db)

end Path

/-! ### The database -/

/-- `JSONDatabase` (Database/JSONDatabase.hpp): its paths. -/
structure JSONDatabase where
  authentication : Path
  users : Path
  properties : Path
  words : Path
  objects : Path
  json : Path

namespace JSONDatabase

def authenticationKey : Key := .of (1 : ℕ)

def usersKey : Key := .of (3 : ℕ)

def jsonKey : Key := .of (5 : ℕ)

def propertiesKey : Key := .of (6 : ℕ)

def wordsKey : Key := .of (7 : ℕ)

def objectsKey : Key := .of (8 : ℕ)

/-- `JSONDatabase::JSONDatabase` on a file. -/
def new : DatabaseM JSONDatabase := do
  let authentication ← Path.root.walk authenticationKey
  let users ← Path.root.walk usersKey
  let properties ← Path.root.walk propertiesKey
  let words ← Path.root.walk wordsKey
  let objects ← Path.root.walk objectsKey
  let json ← Path.root.walk jsonKey
  return ⟨authentication, users, properties, words, objects, json⟩

def rootIndex (J : JSONDatabase) : ℕ := J.json.index

end JSONDatabase

namespace JSON

variable (J : JSONDatabase) (L : Locale)

/-! ### Below a node -/

def valueKey : Key := .of (0 : ℕ)

def propertiesKey : Key := .of (1 : ℕ)

def positionsKey : Key := .of (2 : ℕ)

def cascadeKey : Key := .of (3 : ℕ)

def idKey : Key := .of (4 : ℕ)

def childrenKey : Key := .of (6 : ℕ)

def getChildren (path : Path) : DatabaseM Path := path.walk childrenKey

def getPositions (path : Path) : DatabaseM Path := path.walk positionsKey

def getObjectProperties (path : Path) : DatabaseM Path := path.walk propertiesKey

def type (path : Path) : DatabaseM JSONType := do
  if ← path.hasDataNow then path.getDataAs JSONType else return .undefined

def hasId (path : Path) : DatabaseM Bool := do
  let path ← path.walk idKey
  path.hasDataNow

/-! ### Going up -/

/-- `Path::isRoot` -/
def isRoot (path : Path) : Bool := path.index == J.rootIndex || path.index == 0

def getObjectProperty (path : Path) (position : ℕ) : DatabaseM BString := do
  let path ← getPositions path
  let path ← path.walk (.of position)
  let index ← path.getDataAs ℕ
  let (property, _) ← Path.parentValue BString J.rootIndex ⟨index, 0⟩
  return property

/-- `JSONPath::parent(key, keyType)`; the key is empty if the parent has no
children. -/
def parentKey (path : Path) : DatabaseM (Component × Path) := do
  let (position, path) ← path.parentValue ℕ J.rootIndex
  let (_, path) ← path.parentValue ℕ J.rootIndex
  match ← path.getDataAs JSONType with
  | .array => return (.integer position, path)
  | .object => return (.string (← getObjectProperty J path position), path)
  | _ => return (.string [], path)

/-- `JSONPath::parent()` -/
def parent (path : Path) : DatabaseM Path := do
  let (_, path) ← path.parentValue ℕ J.rootIndex
  let (_, path) ← path.parentValue ℕ J.rootIndex
  return path

/-- `JSONPath::isUserRoot` -/
def isUserRoot (path : Path) : DatabaseM Bool := do
  if isRoot J path then return true
  let up ← parent J path
  if isRoot J up then return true
  if isRoot J (← parent J up) then
    let _ ← parentKey J path
    return true
  return false

/-- The keys and indices on the way up, and the index of the root. -/
def wayFrom : ℕ → Path → DatabaseM (List (Component × ℕ) × ℕ)
  | 0, _ => failure
  | fuel + 1, path => do
    if isRoot J path then return ([], path.index)
    let (key, up) ← parentKey J path
    let (steps, root) ← wayFrom fuel up
    return ((key, path.index) :: steps, root)

def way (path : Path) : DatabaseM JSONPath := do
  let (steps, root) ← upwards (wayFrom J · path)
  return ⟨steps, root⟩

/-- `JSONPath::id`, which `toKey` writes. -/
def id (path : Path) : DatabaseM Key := do
  let node ← way J path
  return node.key L

/-! ### The bounds index -/

/-- The loop of `addObject`. -/
def addObjectFrom (id : Key) : ℕ → Path → DatabaseM Unit
  | 0, _ => failure
  | fuel + 1, json => do
    if isRoot J json then return
    let objects ← J.objects.walk (.of json.index)
    let _ ← objects.walk id
    addObjectFrom id fuel (← parent J json)

def addObject (path : Path) : DatabaseM Unit := do
  let id ← id J L path
  upwards (addObjectFrom J id · path)

/-- The loop of `removeObject`. -/
def removeObjectFrom (id : Key) : ℕ → Path → DatabaseM Unit
  | 0, _ => failure
  | fuel + 1, json => do
    if isRoot J json then return
    let objects ← J.objects.walk (.of json.index)
    objects.clearKeyNow id
    removeObjectFrom id fuel (← parent J json)

def removeObject (path : Path) : DatabaseM Unit := do
  let id ← id J L path
  upwards (removeObjectFrom J id · path)
  J.objects.clearKeyNow (.of path.index)

/-! ### The words -/

/-- The loop of `addWords` over the node and its ancestors below the root. -/
def addTokens (tokens : List BString) : ℕ → Path → DatabaseM Unit
  | 0, _ => failure
  | fuel + 1, json => do
    if isRoot J json then return
    if isRoot J (← parent J json) then return
    tokens.forM fun word => do
      let wordPath ← J.words.walk (.of word)
      let _ ← wordPath.increment
      let _ ← (← wordPath.walk (← id J L json)).increment
    addTokens tokens fuel (← parent J json)

/-- `JSONPath::addWords`, with the part word that is left. -/
def addWords (path : Path) (value partWord : BString) (isWholeWord isFinalWord : Bool) :
    DatabaseM BString := do
  let (tokens, partWord) := tokenise L value partWord isFinalWord isWholeWord
  upwards (addTokens J L tokens · path)
  return partWord

/-- What `removeWords` does for one word and one node. -/
def removeId (word : BString) (wordPath json : Path) : DatabaseM Unit := do
  if ← wordPath.containsNow (← id J L json) then
    let count ← (← wordPath.walk (← id J L json)).preDecrement
    if count = 0 then
      wordPath.clearKeyNow (← id J L json)
      if ← wordPath.isDeadEndNow then J.words.clearKeyNow (.of word)

/-- The loop of `removeWords` for one word. -/
def removeToken (word : BString) (wordPath : Path) : ℕ → Path → DatabaseM Unit
  | 0, _ => failure
  | fuel + 1, json => do
    if isRoot J json then return
    if isRoot J (← parent J json) then return
    removeId J L word wordPath json
    removeToken word wordPath fuel (← parent J json)

/-- `JSONPath::removeWords(value)`, with the part word that is left. -/
def removeWords (path : Path) (value partRemoveWords : BString) (wholeWord isFinalPart : Bool) :
    DatabaseM BString := do
  let (tokens, partRemoveWords) := tokenise L value partRemoveWords isFinalPart wholeWord
  tokens.forM fun word => do
    if ← J.words.containsNow (.of word) then
      let wordPath ← J.words.walk (.of word)
      upwards (removeToken J L word wordPath · path)
  return partRemoveWords

/-- The loop of `JSONPath::removeWords()` over the pages of a string. -/
def removePages (path strings : Path) : ℕ → BString → Option ℕ × Walk Path → DatabaseM Unit
  | 0, _, _ => failure
  | _ + 1, _, (none, _) => return
  | fuel + 1, partRemoveWords, (some index, parts) => do
    let current ← (← strings.walk (.of index)).getDataAs BString
    let parts ← parts.nextNow fuel
    let partRemoveWords ← removeWords J L path current partRemoveWords false parts.1.isNone
    removePages path strings fuel partRemoveWords parts

/-- `JSONPath::removeWords()` -/
def removeAllWords (fuel : ℕ) (path : Path) : DatabaseM Unit := do
  let strings ← path.walk valueKey
  if ← strings.hasDataNow then
    if ← strings.getDataAs Bool then
      let db ← get
      let parts ← (⟨db, strings.copy, .empty⟩ : Walk Path).nextNow fuel
      removePages J L path strings fuel [] parts

/-- The loop of `indexProperties`. -/
def indexPropertiesFrom (path : Path) : ℕ → Path → DatabaseM Unit
  | 0, _ => failure
  | fuel + 1, json => do
    if ← isUserRoot J json then return
    let (key, json) ← parentKey J json
    match key with
    | .string property => let _ ← addWords J L path property [] true true
    | .integer _ => pure ()
    indexPropertiesFrom path fuel json

def indexProperties (path : Path) : DatabaseM Unit := do
  let cascade ← path.walk cascadeKey
  if !(← cascade.hasDataNow) then
    upwards (indexPropertiesFrom J L path · path)
    cascade.setDataTo true

/-! ### Properties -/

/-- `JSONPath::contains(property)` -/
def contains (path : Path) (property : BString) : DatabaseM Bool := do
  if (← type path) ≠ .object then return false
  if !(← J.properties.containsNow (.of property)) then return false
  let propertyPath ← J.properties.walk (.of property)
  (← getObjectProperties path).containsNow (.of propertyPath.index)

def getObjectPropertyPosition (path : Path) (property : BString) : DatabaseM ℕ := do
  let propertyPath ← J.properties.walk (.of property)
  let objectPropertyPath ← (← getObjectProperties path).walk (.of propertyPath.index)
  if !(← objectPropertyPath.hasDataNow) then
    -- a new property
    let _ ← propertyPath.walk (.of path.index)
    let children ← getChildren path
    let position ← children.increment
    (← (← getPositions path).walk (.of position)).setDataTo propertyPath.index
    objectPropertyPath.setDataTo position
    let childPath ← (← getChildren path).walk (.of position)
    let _ ← id J L childPath
    indexProperties J L childPath
  objectPropertyPath.getDataAs ℕ

end JSON

end BeeFish
