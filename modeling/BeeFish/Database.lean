/-
# The database file

A `Database` (Database/DatabaseBase.hpp) is a file that only grows: branch
records of four indices, and blobs of a size and that many bytes, each at the
offset that is its index. Both are read and written at raw offsets; nothing
in the file says what stands where. A `Heap` does: it gives the record that
each offset was allocated for, and `Flat.Holds encodeRecord` says that the
file has it there and apart from all others. Under it every operation is a
step of the heap.

An offset is a natural number; its eight bytes in the file are eight cells,
and a blob's bytes are one cell each.

Key definitions: `Branch`, `Database`, `Record`, `Heap`.
-/
import BeeFish.Encoding
import BeeFish.Lib.Flat

namespace BeeFish

open Flat

/-- A byte of the file: of data, or the `place`th of the eight of an index. -/
inductive Cell where
  | byte (value : UInt8)
  | index (value : ℕ) (place : ℕ)
  deriving DecidableEq, Repr

abbrev Database := Flat Cell

/-- `sizeof(Index)` -/
def sizeofIndex : ℕ := 8

/-- `sizeof(Branch)` -/
def sizeofBranch : ℕ := 4 * sizeofIndex

structure Branch where
  parent : ℕ
  left : ℕ
  right : ℕ
  dataIndex : ℕ
  deriving DecidableEq, Repr

/-- `Branch(parent)` -/
def Branch.new (parent : ℕ) : Branch := ⟨parent, 0, 0, 0⟩

def Branch.isDeadEnd (branch : Branch) : Bool := branch.left == 0 && branch.right == 0

/-- The child that the bit leads to. -/
def Branch.child (branch : Branch) (bit : Bool) : ℕ := if bit then branch.right else branch.left

/-- The link to a deleted branch taken out of its parent. -/
def Branch.unlink (parent : Branch) (index : ℕ) : Branch :=
  if index = parent.left then { parent with left := 0 }
  else if index = parent.right then { parent with right := 0 }
  else parent

/-! ### Layout -/

def encodeIndex (value : ℕ) : List Cell := (List.range sizeofIndex).map (Cell.index value)

/-- The index whose eight cells these are; zero if they are not one's. -/
def decodeIndex (cells : List Cell) : ℕ :=
  match cells.head? with
  | some (.index value _) => if cells = encodeIndex value then value else 0
  | _ => 0

def encodeBranch (branch : Branch) : List Cell :=
  encodeIndex branch.parent ++ encodeIndex branch.left ++ encodeIndex branch.right ++
    encodeIndex branch.dataIndex

def encodeData (data : BString) : List Cell := encodeIndex data.length ++ data.map Cell.byte

def decodeByte : Cell → UInt8
  | .byte value => value
  | .index _ _ => 0

@[simp] theorem length_encodeIndex (value : ℕ) : (encodeIndex value).length = sizeofIndex := by
  simp [encodeIndex]

@[simp] theorem length_encodeBranch (branch : Branch) :
    (encodeBranch branch).length = sizeofBranch := by
  simp [encodeBranch, sizeofBranch, sizeofIndex]

@[simp] theorem length_encodeData (data : BString) :
    (encodeData data).length = sizeofIndex + data.length := by
  simp [encodeData]

@[simp] theorem decodeIndex_encodeIndex (value : ℕ) : decodeIndex (encodeIndex value) = value := by
  simp [decodeIndex, encodeIndex, sizeofIndex, List.range_succ]

@[simp] theorem map_decodeByte (data : BString) : (data.map Cell.byte).map decodeByte = data := by
  rw [List.map_map]
  exact List.map_id data

/-! ### Operations -/

namespace Database

def readIndex (db : Database) (offset : ℕ) : ℕ := decodeIndex (db.read offset sizeofIndex)

def readBytes (db : Database) (offset size : ℕ) : BString := (db.read offset size).map decodeByte

/-- `Database::getBranch` -/
def getBranch (db : Database) (index : ℕ) : Branch where
  parent := db.readIndex index
  left := db.readIndex (index + sizeofIndex)
  right := db.readIndex (index + 2 * sizeofIndex)
  dataIndex := db.readIndex (index + 3 * sizeofIndex)

/-- `Database::setBranch` -/
def setBranch (db : Database) (index : ℕ) (branch : Branch) : Database :=
  db.write index (encodeBranch branch)

/-- `Database::Database` on an empty file: the root branch. -/
def create : Database := setBranch ⟨0, fun _ => .byte 0⟩ 0 (.new 0)

/-- `Database::getNextIndex` -/
def getNextIndex (db : Database) (parent : ℕ) : ℕ × Database :=
  (db.size, db.write db.size (encodeBranch (.new parent)))

/-- The writes of a blob: its size, and its bytes if it has any. -/
def writeData (db : Database) (dataIndex : ℕ) (data : BString) : Database :=
  let db := db.write dataIndex (encodeIndex data.length)
  if data.length > 0 then db.write (dataIndex + sizeofIndex) (data.map Cell.byte) else db

/-- `Database::allocate` -/
def allocate (db : Database) (data : BString) : ℕ × Database := (db.size, db.writeData db.size data)

@[simp] theorem allocate_fst (db : Database) (data : BString) : (db.allocate data).1 = db.size :=
  rfl

/-- `Database::setData` -/
def setData (db : Database) (dataIndex : ℕ) (source : BString) : Database :=
  db.writeData dataIndex source

/-- `Database::getData` -/
def getData (db : Database) (dataIndex : ℕ) : BString :=
  if dataIndex = 0 then []
  else db.readBytes (dataIndex + sizeofIndex) (db.readIndex dataIndex)

/-- `Database::hasData` -/
def hasData (db : Database) (index : ℕ) : Bool := (db.getBranch index).dataIndex != 0

/-- `Database::deleteData` -/
def deleteData (db : Database) (index : ℕ) : Database :=
  let branch := db.getBranch index
  if branch.dataIndex ≠ 0 then db.setBranch index { branch with dataIndex := 0 } else db

/-- `Database::deleteBranch`; the fuel bounds the depth of the recursion. -/
def deleteBranch : ℕ → Database → ℕ → Option Database
  | 0, _, _ => none
  | fuel + 1, db, index => do
    let db := db.deleteData index
    let branch := db.getBranch index
    let db :=
      if index ≠ 0 then db.setBranch branch.parent ((db.getBranch branch.parent).unlink index)
        else db
    let db ← (if branch.left ≠ 0 then deleteBranch fuel db branch.left else some db)
    if branch.right ≠ 0 then deleteBranch fuel db branch.right else some db

end Database

end BeeFish
