/-
# Processes on one file

Any number of processes work on one file. Each reading and writing of a record
and each locking and unlocking is one step, in the order of the source:
`goLeft` and `goRight` (`Go`) read the branch, and if the link is missing lock
the file and read it again, append a new branch (`Database::getNextIndex`) and
write the link; `setData` (`SetData`) locks the index (`LockFile::lock`), reads
the branch and its data, deletes data of another size, allocates and writes
the branch back, or overwrites the data. The lock of the file is recursive.

A process left alone does what one process does (`Go.alone`,
`SetData.alone`).

Key definitions: `Shared`, `Go`, `SetData`, `Process`, `Process.step`.
-/
import BeeFish.Path
import BeeFish.Lib.Mutex
import BeeFish.Lib.Interleave

namespace BeeFish

/-- A mutex of an index and how many want it. -/
structure MapValueType (ι : Type) where
  mutex : Mutex ι
  counter : ℕ
  deriving DecidableEq

/-- The file and its shared memory: the mutex of the file, and those of its
indices, free and not wanted where the map has none. -/
structure Shared (ι : Type) where
  database : Database
  mutex : Mutex ι
  sharedMap : ℕ → MapValueType ι

/-- Nothing is locked. -/
def Shared.unlocked (ι : Type) (db : Database) : Shared ι := ⟨db, .free, fun _ => ⟨.free, 0⟩⟩

/-! ### Going -/

/-- Where a process stands in `goLeft` or `goRight`, with its copy of the
branch. -/
inductive Go where
  | getBranch
  | lock
  | getBranchAgain
  | lockNext (branch : Branch)
  | size (branch : Branch)
  | writeNext (branch : Branch) (index : ℕ)
  | unlockNext (branch : Branch) (index : ℕ)
  | setBranch (branch : Branch)
  | unlock (branch : Branch)
  deriving DecidableEq

/-- Where a process stands in `setData`. The last four steps carry the
result. -/
inductive SetData where
  | lock
  | count
  | lockFirst
  | unlockFirst
  | unlockWait
  | lockWait
  | getBranch
  | getData (branch : Branch)
  | deleteData (branch : Branch)
  | deleteDataSet (branch copy : Branch)
  | allocate (branch : Branch)
  | size (branch : Branch)
  | writeData (branch : Branch) (dataIndex : ℕ)
  | allocated (branch : Branch) (dataIndex : ℕ)
  | setBranch (branch : Branch)
  | setData (branch : Branch)
  | lockEnd (result : Bool)
  | unlockIndex (result : Bool)
  | discount (result : Bool)
  | unlockEnd (result : Bool)
  deriving DecidableEq

section

variable {ι : Type} [DecidableEq ι]

namespace Shared

/-- `ScopedLock` of the file. -/
def lock (p : ι) (x : Shared ι) : Option (Shared ι) :=
  (x.mutex.lock p).map fun m => { x with mutex := m }

def unlock (p : ι) (x : Shared ι) : Option (Shared ι) :=
  (x.mutex.unlock p).map fun m => { x with mutex := m }

/-- The mutex of an index locked. -/
def lockIndex (p : ι) (index : ℕ) (x : Shared ι) : Option (Shared ι) :=
  ((x.sharedMap index).mutex.lock p).map fun m =>
    { x with sharedMap := Function.update x.sharedMap index { x.sharedMap index with mutex := m } }

def unlockIndex (p : ι) (index : ℕ) (x : Shared ι) : Option (Shared ι) :=
  ((x.sharedMap index).mutex.unlock p).map fun m =>
    { x with sharedMap := Function.update x.sharedMap index { x.sharedMap index with mutex := m } }

/-- `_counter++` -/
def count (index : ℕ) (x : Shared ι) : Shared ι :=
  let value := x.sharedMap index
  { x with
    sharedMap := Function.update x.sharedMap index { value with counter := value.counter + 1 } }

/-- `--_counter`, and the mutex erased at zero. -/
def discount (index : ℕ) (x : Shared ι) : Shared ι :=
  let value := x.sharedMap index
  let value := if value.counter - 1 = 0 then ⟨.free, 0⟩
    else { value with counter := value.counter - 1 }
  { x with sharedMap := Function.update x.sharedMap index value }

end Shared

/-- The next step of going to the child of the bit: where it stands then, or
the index it comes to. -/
def Go.step (p : ι) (index : ℕ) (bit : Bool) (x : Shared ι) : Go → Option (Shared ι × (Go ⊕ ℕ))
  | getBranch =>
    let branch := x.database.getBranch index
    some (x, if branch.child bit = 0 then .inl lock else .inr (branch.child bit))
  | lock => (x.lock p).map fun x => (x, .inl getBranchAgain)
  | getBranchAgain =>
    let branch := x.database.getBranch index
    some (x, .inl (if branch.child bit = 0 then lockNext branch else unlock branch))
  | lockNext branch => (x.lock p).map fun x => (x, .inl (size branch))
  | size branch => some (x, .inl (writeNext branch x.database.size))
  | writeNext branch new =>
    some ({ x with database := x.database.setBranch new (.new index) },
      .inl (unlockNext branch new))
  | unlockNext branch new =>
    (x.unlock p).map fun x => (x, .inl (setBranch (branch.setChild bit new)))
  | setBranch branch =>
    some ({ x with database := x.database.setBranch index branch }, .inl (unlock branch))
  | unlock branch => (x.unlock p).map fun x => (x, .inr (branch.child bit))

/-- The next step of setting the data: where it stands then, or its result. -/
def SetData.step (p : ι) (index : ℕ) (value : BString) (x : Shared ι) : SetData →
    Option (Shared ι × (SetData ⊕ Bool))
  | lock => (x.lock p).map fun x => (x, .inl count)
  | count =>
    some (x.count index, .inl (if (x.sharedMap index).counter = 0 then lockFirst else unlockWait))
  | lockFirst => (x.lockIndex p index).map fun x => (x, .inl unlockFirst)
  | unlockFirst => (x.unlock p).map fun x => (x, .inl getBranch)
  | unlockWait => (x.unlock p).map fun x => (x, .inl lockWait)
  | lockWait => (x.lockIndex p index).map fun x => (x, .inl getBranch)
  | getBranch => some (x, .inl (getData (x.database.getBranch index)))
  | getData branch =>
    let current := x.database.getData branch.dataIndex
    some (x, .inl (
      if branch.dataIndex = 0 then allocate branch
      else if current.length ≠ value.length then deleteData branch
      else if current ≠ value then setData branch
      else lockEnd false))
  | deleteData branch =>
    let copy := x.database.getBranch index
    some (x, .inl (
      if copy.dataIndex ≠ 0 then deleteDataSet { branch with dataIndex := 0 }
        { copy with dataIndex := 0 }
      else allocate { branch with dataIndex := 0 }))
  | deleteDataSet branch copy =>
    some ({ x with database := x.database.setBranch index copy }, .inl (allocate branch))
  | allocate branch => (x.lock p).map fun x => (x, .inl (size branch))
  | size branch => some (x, .inl (writeData branch x.database.size))
  | writeData branch dataIndex =>
    some ({ x with database := x.database.writeData dataIndex value },
      .inl (allocated branch dataIndex))
  | allocated branch dataIndex =>
    (x.unlock p).map fun x => (x, .inl (setBranch { branch with dataIndex := dataIndex }))
  | setBranch branch =>
    some ({ x with database := x.database.setBranch index branch }, .inl (lockEnd true))
  | setData branch =>
    some ({ x with database := x.database.setData branch.dataIndex value }, .inl (lockEnd true))
  | lockEnd result => (x.lock p).map fun x => (x, .inl (unlockIndex result))
  | unlockIndex result => (x.unlockIndex p index).map fun x => (x, .inl (discount result))
  | discount result => some (x.discount index, .inl (unlockEnd result))
  | unlockEnd result => (x.unlock p).map fun x => (x, .inr result)

/-! ### A process alone -/

omit [DecidableEq ι] in
@[simp] theorem Branch.child_setChild (branch : Branch) (bit : Bool) (index : ℕ) :
    (branch.setChild bit index).child bit = index := by
  cases bit <;> rfl

section

open Interleave

variable (p : ι) (db : Database) (index : ℕ)

/-- Going alone goes to the child. -/
theorem Go.alone (bit : Bool) :
    Returns (Interleave.alone (Go.step p index bit) · (.unlocked ι db) .getBranch)
    (.unlocked ι (Path.child db index bit).2, (Path.child db index bit).1) := by
  refine ⟨9, fun fuel hf => ?_⟩
  obtain ⟨k, rfl⟩ := Nat.exists_eq_add_of_le' hf
  by_cases h : (db.getBranch index).child bit = 0
  · have hc : Path.child db index bit =
        (db.size, (db.setBranch db.size (.new index)).setBranch index
          ((db.getBranch index).setChild bit db.size)) := by
      simp [Path.child, h, Database.getNextIndex, Database.setBranch]
    simp [Interleave.alone, Go.step, Shared.unlocked, Shared.lock, Shared.unlock, h, hc]
  · simp [Interleave.alone, Go.step, Shared.unlocked, Path.child, h]

/-- The process has locked the index, and no one else wants it. -/
def Shared.locked : Shared ι :=
  ⟨db, .free, Function.update (fun _ => ⟨.free, 0⟩) index ⟨.held p 0, 1⟩⟩

theorem SetData.alone_lock (value : BString) (k : ℕ) :
    Interleave.alone (SetData.step p index value) (k + 4) (.unlocked ι db) .lock =
      Interleave.alone (SetData.step p index value) k (.locked p db index) .getBranch := by
  simp [Interleave.alone, SetData.step, Shared.unlocked, Shared.lock, Shared.unlock,
    Shared.lockIndex, Shared.count, Shared.locked]

theorem SetData.alone_unlock (value : BString) (result : Bool) :
    Returns (Interleave.alone (SetData.step p index value) · (.locked p db index) (.lockEnd result))
      (.unlocked ι db, result) := by
  refine ⟨4, fun fuel hf => ?_⟩
  obtain ⟨k, rfl⟩ := Nat.exists_eq_add_of_le' hf
  simp [Interleave.alone, SetData.step, Shared.unlocked, Shared.lock, Shared.unlock,
    Shared.unlockIndex,
    Shared.discount, Shared.locked]

/-- A branch without data gets new data. -/
theorem SetData.alone_allocate (value : BString) (branch : Branch) :
    Returns (Interleave.alone (SetData.step p index value) · (.locked p db index)
      (.allocate branch))
      (.unlocked ι ((db.allocate value).2.setBranch index { branch with dataIndex := db.size }),
        true) :=
  (SetData.alone_unlock p _ index value true).steps 5 fun k => by
    simp [Interleave.alone, SetData.step, Shared.locked, Shared.lock, Shared.unlock,
      Database.allocate]

/-- Setting data alone is `Path::setData`. -/
theorem SetData.alone (count : ℤ) (value : BString) :
    Returns (Interleave.alone (SetData.step p index value) · (.unlocked ι db) .lock)
      (.unlocked ι (Path.setData db ⟨index, count⟩ value).2,
        (Path.setData db ⟨index, count⟩ value).1) := by
  refine Returns.steps 4 ?_ (SetData.alone_lock p db index value)
  by_cases h0 : (db.getBranch index).dataIndex = 0
  · have he : Path.setData db ⟨index, count⟩ value =
        (true, (db.allocate value).2.setBranch index
          { db.getBranch index with dataIndex := db.size }) := by
      simp [Path.setData, h0]
    rw [he]
    refine Returns.steps 2 (SetData.alone_allocate p db index value (db.getBranch index))
      fun k => ?_
    simp [Interleave.alone, SetData.step, Shared.locked, h0]
  by_cases hl : (db.getData (db.getBranch index).dataIndex).length = value.length
  · by_cases hv : db.getData (db.getBranch index).dataIndex = value
    · have he : Path.setData db ⟨index, count⟩ value = (false, db) := by simp [Path.setData, h0, hv]
      rw [he]
      refine Returns.steps 2 (SetData.alone_unlock p db index value false) fun k => ?_
      simp [Interleave.alone, SetData.step, Shared.locked, h0, hv]
    · have he : Path.setData db ⟨index, count⟩ value =
        (true, db.setData (db.getBranch index).dataIndex value) := by
        simp [Path.setData, h0, hl, hv]
      rw [he]
      refine Returns.steps 3 (SetData.alone_unlock p _ index value true) fun k => ?_
      simp [Interleave.alone, SetData.step, Shared.locked, h0, hl, hv]
  · have he : Path.setData db ⟨index, count⟩ value =
        (true, ((db.deleteData index).allocate value).2.setBranch index
          { db.getBranch index with dataIndex := (db.deleteData index).size }) := by
      simp [Path.setData, h0, hl, Path.deleteData]
    rw [he]
    refine Returns.steps 4
      (SetData.alone_allocate p _ index value { db.getBranch index with dataIndex := 0 })
      fun k => ?_
    simp [Interleave.alone, SetData.step, Shared.locked, h0, hl, Database.deleteData]

end

/-! ### Processes -/

/-- What a process calls: `keep` keeps the path it has come to. -/
inductive Call where
  | root
  | go (bit : Bool)
  | setData (value : BString)
  | keep (path : List Key)

inductive Pc where
  | idle
  | go (bit : Bool) (pc : Go)
  | setData (value : BString) (pc : SetData)

/-- A process with the index of its path, its calls to come and the paths it
has kept. -/
structure Process where
  index : ℕ
  pc : Pc
  todo : List Call
  kept : List (List Key × ℕ)

namespace Process

/-- A process that stands at the index and has calls to make. -/
def new (index : ℕ) (todo : List Call) : Process := ⟨index, .idle, todo, []⟩

def finished (t : Process) : Prop := t.pc = .idle ∧ t.todo = []

/-- The next call begins. -/
def call (t : Process) : Option Process :=
  match t.todo with
  | [] => none
  | .root :: todo => some { t with index := 0, todo := todo }
  | .go bit :: todo => some { t with pc := .go bit .getBranch, todo := todo }
  | .setData value :: todo => some { t with pc := .setData value .lock, todo := todo }
  | .keep path :: todo => some { t with kept := t.kept ++ [(path, t.index)], todo := todo }

/-- Where the process stands after a step of going. -/
def went (t : Process) (bit : Bool) : Go ⊕ ℕ → Process
  | .inl pc => { t with pc := .go bit pc }
  | .inr index => { t with pc := .idle, index := index }

/-- Where the process stands after a step of setting data. -/
def set (t : Process) (value : BString) : SetData ⊕ Bool → Process
  | .inl pc => { t with pc := .setData value pc }
  | .inr _ => { t with pc := .idle }

/-- The next step of the process. -/
def step (p : ι) (x : Shared ι) (t : Process) : Option (Shared ι × Process) :=
  match t.pc with
  | .idle => t.call.map fun t => (x, t)
  | .go bit pc => (pc.step p t.index bit x).map fun (x, r) => (x, t.went bit r)
  | .setData value pc => (pc.step p t.index value x).map fun (x, r) => (x, t.set value r)

end Process

/-! ### The mutex of the file -/

end

/-- How often a process has locked the file. -/
def Go.depth : Go → ℕ
  | getBranch => 0
  | lock => 0
  | getBranchAgain => 1
  | lockNext _ => 1
  | size _ => 2
  | writeNext _ _ => 2
  | unlockNext _ _ => 2
  | setBranch _ => 1
  | unlock _ => 1

def SetData.depth : SetData → ℕ
  | count => 1
  | lockFirst => 1
  | unlockFirst => 1
  | unlockWait => 1
  | size _ => 1
  | writeData _ _ => 1
  | allocated _ _ => 1
  | unlockIndex _ => 1
  | discount _ => 1
  | unlockEnd _ => 1
  | _ => 0

def Pc.depth : Pc → ℕ
  | idle => 0
  | go _ pc => pc.depth
  | setData _ pc => pc.depth

section

variable {ι : Type} [DecidableEq ι] {p : ι} {x x' : Shared ι} {t t' : Process}

/-- The mutex of the file after a step of `p`, which then has locked it `d`
times. -/
structure Turn (p : ι) (x x' : Shared ι) (d : ℕ) : Prop where
  self : x'.mutex.depth p = d
  others : ∀ q, q ≠ p → x'.mutex.depth q = x.mutex.depth q

namespace Turn

variable {ρ : Type} {r s : ρ} {d : ℕ}

/-- A step that locks the file and goes on. -/
theorem of_lock (h : (x.lock p).map (fun x => (x, r)) = some (x', s)) (hd : x.mutex.depth p = d) :
    Turn p x x' (d + 1) ∧ x'.database = x.database ∧ r = s := by
  obtain ⟨y, hy, he⟩ := Option.map_eq_some_iff.mp h
  obtain ⟨m, hm, rfl⟩ := Option.map_eq_some_iff.mp hy
  obtain ⟨rfl, rfl⟩ := Prod.mk.inj he
  have hq := Mutex.lock_depth hm
  exact ⟨⟨by rw [hq, if_pos rfl, hd], fun q hqp => by rw [hq, if_neg hqp]⟩, rfl, rfl⟩

/-- A step that unlocks the file and goes on. -/
theorem of_unlock (h : (x.unlock p).map (fun x => (x, r)) = some (x', s))
    (hd : x.mutex.depth p = d + 1) :
    Turn p x x' d ∧ x'.database = x.database ∧ r = s := by
  obtain ⟨y, hy, he⟩ := Option.map_eq_some_iff.mp h
  obtain ⟨m, hm, rfl⟩ := Option.map_eq_some_iff.mp hy
  obtain ⟨rfl, rfl⟩ := Prod.mk.inj he
  have hq := Mutex.unlock_depth hm
  exact ⟨⟨by rw [hq, if_pos rfl, hd, Nat.add_sub_cancel], fun q hqp => by rw [hq, if_neg hqp]⟩, rfl,
    rfl⟩

/-- A step that leaves the mutex of the file and goes on. -/
theorem of_some (x : Shared ι) {y : Shared ι} (h : some (y, r) = some (x', s))
    (hy : y.mutex = x.mutex)
    (hd : x.mutex.depth p = d) : Turn p x x' d ∧ y = x' ∧ r = s := by
  obtain ⟨rfl, rfl⟩ := Prod.mk.inj (Option.some.inj h)
  exact ⟨⟨hy ▸ hd, fun q hq => by rw [hy]⟩, rfl, rfl⟩

/-- A step that locks or unlocks an index and goes on. -/
theorem of_index {o : Option (Shared ι)} (h : o.map (fun x => (x, r)) = some (x', s))
    (ho : o = some x' → x'.database = x.database ∧ x'.mutex = x.mutex) (hd : x.mutex.depth p = d) :
    Turn p x x' d ∧ x'.database = x.database ∧ r = s := by
  obtain ⟨y, hy, he⟩ := Option.map_eq_some_iff.mp h
  obtain ⟨rfl, rfl⟩ := Prod.mk.inj he
  obtain ⟨hdb, hm⟩ := ho hy
  exact ⟨⟨hm ▸ hd, fun q hq => by rw [hm]⟩, hdb, rfl⟩

end Turn

namespace Shared

theorem lockIndex_eq {index : ℕ} (h : x.lockIndex p index = some x') :
    x'.database = x.database ∧ x'.mutex = x.mutex := by
  obtain ⟨m, -, rfl⟩ := Option.map_eq_some_iff.mp h
  exact ⟨rfl, rfl⟩

theorem unlockIndex_eq {index : ℕ} (h : x.unlockIndex p index = some x') :
    x'.database = x.database ∧ x'.mutex = x.mutex := by
  obtain ⟨m, -, rfl⟩ := Option.map_eq_some_iff.mp h
  exact ⟨rfl, rfl⟩

end Shared

end

/-- Processes on a file. -/
abbrev System (ι : Type) := Interleave.State ι (Shared ι) Process

end BeeFish
