/-
# Storing JSON nodes

What makes a node and takes one away (Database/JSONPath.hpp): `setType`, which
clears a node of another type, `operator []` of a property, which makes the
node an object and gives the property a position, and `clear` and
`deleteProperty`, which call each other and themselves for what stands below.

The positions of a property that is deleted are not cleared, and its position
is not used again.

Key definitions: `JSON.setType`, `JSON.child`, `JSON.clear`,
`JSON.deleteProperty`.
-/
import BeeFish.JSONNode

namespace BeeFish

namespace JSON

variable (J : JSONDatabase) (L : Locale)

/-- `JSONPath::contains(index)` -/
def containsIndex (path : Path) (index : ℕ) : DatabaseM Bool := do
  let type ← type path
  if type ≠ .array ∧ type ≠ .object then return false
  (← getChildren path).containsNow (.of index)

/-- The loop of `deleteProperty` over the properties on the way up. -/
def removeProperties (json : Path) : ℕ → Path → DatabaseM Unit
  | 0, _ => failure
  | fuel + 1, path => do
    if ← isUserRoot J path then return
    let (key, path) ← parentKey J path
    match key with
    | .string property => let _ ← removeWords J L json property [] true true
    | .integer _ => pure ()
    removeProperties json fuel path

/-- The children that `operator [] (index)` makes, from `count` on. -/
def makeItems (path : Path) (index : ℕ) : ℕ → ℕ → DatabaseM Unit
  | 0, _ => failure
  | fuel + 1, count => do
    if index ≤ count then
      (← getChildren path).setDataTo count
    else
      let childPath ← (← getChildren path).walk (.of (count + 1))
      if !(← hasId childPath) then let _ ← id J L childPath
      indexProperties J L childPath
      makeItems path index fuel (count + 1)

mutual

/-- `JSONPath::setType` -/
def setType : ℕ → Path → JSONType → DatabaseM Unit
  | 0, _, _ => failure
  | fuel + 1, path, newType => do
    if !(← path.hasDataNow) then
      path.setDataTo newType
      if !(← hasId path) then let _ ← id J L path
      addObject J L path
    else if (← type path) ≠ newType then
      let _ ← id J L path
      clear fuel path
      path.setDataTo newType
      addObject J L path

/-- `JSONPath::operator [] (property)` -/
def child : ℕ → Path → BString → DatabaseM Path
  | 0, _, _ => failure
  | fuel + 1, path, property => do
    setType fuel path .object
    let position ← getObjectPropertyPosition J L path property
    (← getChildren path).walk (.of position)

/-- `JSONPath::operator [] (index)`, of an item of an array that is being
cleared or made. -/
def item : ℕ → Path → ℕ → DatabaseM Path
  | 0, _, _ => failure
  | fuel + 1, path, index => do
    if index < 1 then failure
    let children ← getChildren path
    if (← type path) = .undefined then setType fuel path .array
    let count ← (do if ← children.hasDataNow then children.getDataAs ℕ else return 0)
    if count < index then
      if (← type path) = .array then makeItems J L path index (index + 1) count else failure
    (← getChildren path).walk (.of index)

/-- `JSONPath::clear` -/
def clear : ℕ → Path → DatabaseM Unit
  | 0, _ => failure
  | fuel + 1, path => do
    match ← type path with
    | .string =>
      removeAllWords J L fuel path
      path.clearKeyNow valueKey
    | .array =>
      let children ← getChildren path
      let db ← get
      let items ← (⟨db, children.copy, .empty⟩ : Walk Path).nextNow fuel
      clearItems fuel path children items
    | .object =>
      let children ← getChildren path
      let db ← get
      let items ← (⟨db, children.copy, .empty⟩ : Walk Path).nextNow fuel
      clearProperties fuel path items
    | _ => pure ()
    removeObject J L path
    path.clearNow

/-- The loop of `clear` over the items of an array. -/
def clearItems : ℕ → Path → Path → Option ℕ × Walk Path → DatabaseM Unit
  | 0, _, _, _ => failure
  | _ + 1, _, _, (none, _) => return
  | fuel + 1, path, children, (some index, items) => do
    let path' ← item fuel path index
    clear fuel path'
    children.clearKeyNow (.of index)
    let items ← items.nextNow fuel
    clearItems fuel path children items

/-- The loop of `clear` over the properties of an object. -/
def clearProperties : ℕ → Path → Option ℕ × Walk Path → DatabaseM Unit
  | 0, _, _ => failure
  | _ + 1, _, (none, _) => return
  | fuel + 1, path, (some index, items) => do
    let property ← getObjectProperty J path index
    deleteProperty fuel path property
    let items ← items.nextNow fuel
    clearProperties fuel path items

/-- `JSONPath::deleteProperty` -/
def deleteProperty : ℕ → Path → BString → DatabaseM Unit
  | 0, _, _ => failure
  | fuel + 1, path, property => do
    if !(← contains J path property) then return
    let json ← child fuel path property
    upwards (removeProperties J L json · json)
    let position ← getObjectPropertyPosition J L path property
    let propertyPath ← J.properties.walk (.of property)
    clear fuel json
    if ← propertyPath.containsNow (.of path.index) then
      propertyPath.clearKeyNow (.of path.index)
      if ← propertyPath.isDeadEndNow then J.properties.clearKeyNow (.of property)
    (← getObjectProperties path).clearKeyNow (.of propertyPath.index)
    (← getChildren path).clearKeyNow (.of position)

end

/-- `json[k1]…[kn]`, the node at the end of some properties. -/
def childAll (fuel : ℕ) (path : Path) : List BString → DatabaseM Path
  | [] => return path
  | property :: properties => do
    let path ← child J L fuel path property
    childAll fuel path properties

end JSON

end BeeFish
