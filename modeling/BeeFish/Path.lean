/-
# Paths

A `Path` (Database/Path.hpp) is the index of a branch and the count of its
encoding. Going left or right from a branch that has no child there appends
a new branch to the file and links it, so that `path[key]` makes its own way;
`contains` walks without making any. `clear(key)` cuts the link below the
last branch with two children on the way of the key, or below the path itself
if there is none.

One process works on the file, so the second reading of a branch, after the
lock is taken, gives what the first gave. The operations that delete branches
are none where the recursion would not end.
-/
import BeeFish.Database

namespace BeeFish

structure Path where
  index : ℕ
  count : ℤ
  deriving DecidableEq, Repr

/-- The branch with its link of the bit replaced. -/
def Branch.setChild (branch : Branch) (bit : Bool) (index : ℕ) : Branch :=
  if bit then { branch with right := index } else { branch with left := index }

namespace Path

/-- `Path(database)` -/
def root : Path := ⟨0, 0⟩

/-- `Path(source)`: the count starts again. -/
def copy (path : Path) : Path := ⟨path.index, 0⟩

/-! ### Going -/

/-- The child of the bit, and the file with it made if it was not there. -/
def child (db : Database) (index : ℕ) (bit : Bool) : ℕ × Database :=
  let branch := db.getBranch index
  if branch.child bit = 0 then
    let branch := db.getBranch index
    if branch.child bit = 0 then
      let (new, db) := db.getNextIndex index
      (new, db.setBranch index (branch.setChild bit new))
    else (branch.child bit, db)
  else (branch.child bit, db)

/-- `Path::goLeft` -/
def goLeft (db : Database) (path : Path) : Path × Database :=
  let (index, db) := child db path.index false
  (⟨index, if 0 < path.count then path.count - 1 else path.count⟩, db)

/-- `Path::goRight` -/
def goRight (db : Database) (path : Path) : Path × Database :=
  let (index, db) := child db path.index true
  (⟨index, path.count + 1⟩, db)

/-- `Path::goUp` -/
def goUp (db : Database) (path : Path) : Path :=
  let branch := db.getBranch path.index
  let parent := db.getBranch branch.parent
  ⟨branch.parent, if parent.left = path.index then path.count + 1 else path.count - 1⟩

def canGoLeft (db : Database) (path : Path) : Bool := (db.getBranch path.index).left != 0

def canGoRight (db : Database) (path : Path) : Bool := (db.getBranch path.index).right != 0

def isDeadEnd (db : Database) (path : Path) : Bool := (db.getBranch path.index).isDeadEnd

/-- `Path::writeBit`: the bit is counted by going and by `PowerEncoding::writeBit`. -/
def writeBit (db : Database) (path : Path) (bit : Bool) : Path × Database :=
  let (path, db) := if bit then goRight db path else goLeft db path
  (⟨path.index, if bit then path.count + 1 else if 0 < path.count then path.count - 1
    else path.count⟩, db)

def writeBits (db : Database) (path : Path) : List Bool → Path × Database
  | [] => (path, db)
  | bit :: bits =>
    let (path, db) := writeBit db path bit
    writeBits db path bits

/-- `path[key]` -/
def get (db : Database) (path : Path) (key : Key) : Path × Database :=
  writeBits db path.copy key.bits

/-- `path[k1]…[kn]` -/
def getAll (db : Database) (path : Path) : List Key → Path × Database
  | [] => (path, db)
  | key :: keys =>
    let (path, db) := get db path key
    getAll db path keys

/-! ### Contains -/

/-- The walk of `Path::Contains`. -/
structure Contains where
  index : ℕ
  contains : Bool

/-- `Contains::Contains` -/
def Contains.new (db : Database) (index : ℕ) : Contains := ⟨index, !(db.getBranch index).isDeadEnd⟩

/-- `Contains::writeBit` -/
def Contains.writeBit (db : Database) (c : Contains) (bit : Bool) : Contains :=
  if c.contains then
    let branch := db.getBranch c.index
    if bit = false ∧ branch.left ≠ 0 then { c with index := branch.left }
    else if bit = true ∧ branch.right ≠ 0 then { c with index := branch.right }
    else ⟨0, false⟩
  else c

/-- `Path::contains` -/
def contains (db : Database) (path : Path) (key : Key) : Bool :=
  (key.bits.foldl (Contains.writeBit db) (.new db path.index)).contains

/-! ### Data -/

/-- `Path::hasData` -/
def hasData (db : Database) (path : Path) : Bool := db.hasData path.index

/-- `Path::getData` -/
def getData (db : Database) (path : Path) : BString :=
  let branch := db.getBranch path.index
  if branch.dataIndex ≠ 0 then db.getData branch.dataIndex else []

/-- `Path::deleteData` -/
def deleteData (db : Database) (path : Path) : Database := db.deleteData path.index

/-- `Path::setData` -/
def setData (db : Database) (path : Path) (value : BString) : Bool × Database :=
  let branch := db.getBranch path.index
  let current := db.getData branch.dataIndex
  let (branch, db) :=
    if branch.dataIndex ≠ 0 ∧ current.length ≠ value.length then
      ({ branch with dataIndex := 0 }, deleteData db path)
    else (branch, db)
  if branch.dataIndex = 0 then
    let (dataIndex, db) := db.allocate value
    (true, db.setBranch path.index { branch with dataIndex := dataIndex })
  else if current ≠ value then (true, db.setData branch.dataIndex value)
  else (false, db)

/-! ### Clearing -/

/-- No chain of links in a file is longer than the file. -/
def depth (db : Database) : ℕ := db.size + 1

/-- `Path::clear()` -/
def clear (db : Database) (path : Path) : Option Database := do
  let branch := db.getBranch path.index
  let db := if branch.dataIndex ≠ 0 then deleteData db path else db
  let db ← (if branch.left ≠ 0 then db.deleteBranch (depth db) branch.left else some db)
  if branch.right ≠ 0 then db.deleteBranch (depth db) branch.right else some db

/-- The loop of `Path::clear(value)`: the last branch with two children on the
way of the bits, and the bit taken there. -/
def lastFork (db : Database) : List Bool → (index lastIndex : ℕ) → (lastBit : Bool) → ℕ × Bool
  | [], _, lastIndex, lastBit => (lastIndex, lastBit)
  | bit :: bits, index, lastIndex, lastBit =>
    let branch := db.getBranch index
    let (lastIndex, lastBit) :=
      if branch.left ≠ 0 ∧ branch.right ≠ 0 then (index, bit) else (lastIndex, lastBit)
    lastFork db bits (branch.child bit) lastIndex lastBit

/-- `Path::clear(value)` -/
def clearKey (db : Database) (path : Path) (key : Key) : Option Database :=
  if contains db path key then
    let stack := key.bits.foldl Stack.writeBit Stack.empty
    let (lastIndex, lastBit) := lastFork db stack.bits path.index path.index true
    db.deleteBranch (depth db) ((db.getBranch lastIndex).child lastBit)
  else some db

end Path

end BeeFish
