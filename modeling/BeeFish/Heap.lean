/-
# The heap of a file

A `Heap` says which record each offset of the file was allocated for.
`Holds encodeRecord db Γ` says that the file holds the heap `Γ`: each record
stands at its offset, inside the file and apart from every other. One lemma
for each operation of the database says which step of the heap it is; above
this module the cells of the file are not looked at again.

Key definitions: `Record`, `Heap`.
-/
import BeeFish.Database

namespace BeeFish

open Flat

inductive Record where
  | branch (branch : Branch)
  | blob (data : BString)
  deriving DecidableEq, Repr

abbrev Heap := ℕ → Option Record

def encodeRecord : Record → List Cell
  | .branch branch => encodeBranch branch
  | .blob data => encodeData data

/-- The file holds the records of the heap. -/
abbrev Database.Holds (db : Database) (Γ : Heap) : Prop := Flat.Holds encodeRecord db Γ

theorem length_encodeRecord_pos (r : Record) : 0 < (encodeRecord r).length := by
  cases r with
  | branch b => simp [encodeRecord, sizeofBranch, sizeofIndex]
  | blob d => simp only [encodeRecord, length_encodeData, sizeofIndex]; omega

variable {db : Database} {Γ : Heap}

namespace Database

theorem Holds.lt_size (h : db.Holds Γ) {p : ℕ} {r : Record} (hp : Γ p = some r) : p < db.size := by
  have h1 := h.within hp
  have h2 := length_encodeRecord_pos r
  omega

/-- The end of the file is allocated for nothing. -/
theorem Holds.fresh (h : db.Holds Γ) : Γ db.size = none := by
  by_contra hne
  obtain ⟨r, hr⟩ := Option.ne_none_iff_exists'.mp hne
  exact absurd (h.lt_size hr) (by omega)

/-! ### Reading -/

theorem Holds.getBranch (h : db.Holds Γ) {p : ℕ} {b : Branch} (hp : Γ p = some (.branch b)) :
    db.getBranch p = b := by
  have hr := h.reads hp
  simp only [encodeRecord, length_encodeBranch, sizeofBranch] at hr
  rw [show 4 * sizeofIndex = sizeofIndex + (sizeofIndex + (sizeofIndex + sizeofIndex)) by omega,
    Flat.read_add, Flat.read_add, Flat.read_add, encodeBranch, List.append_assoc,
      List.append_assoc] at hr
  obtain ⟨h1, hr⟩ := List.append_inj hr (by simp)
  obtain ⟨h2, hr⟩ := List.append_inj hr (by simp)
  obtain ⟨h3, h4⟩ := List.append_inj hr (by simp)
  rw [show p + sizeofIndex + sizeofIndex = p + 2 * sizeofIndex by omega] at h3 h4
  rw [show p + 2 * sizeofIndex + sizeofIndex = p + 3 * sizeofIndex by omega] at h4
  simp [Database.getBranch, readIndex, h1, h2, h3, h4]

theorem Holds.getData (h : db.Holds Γ) {p : ℕ} {d : BString} (hp : Γ p = some (.blob d))
    (h0 : p ≠ 0) :
    db.getData p = d := by
  have hr := h.reads hp
  simp only [encodeRecord, length_encodeData, Flat.read_add] at hr
  obtain ⟨h1, h2⟩ := List.append_inj hr (by simp)
  simp only [Database.getData, if_neg h0, readIndex, readBytes, h1, decodeIndex_encodeIndex, h2,
    map_decodeByte]

/-! ### Writing -/

theorem writeData_eq (db : Database) (p : ℕ) (d : BString) :
    db.writeData p d = db.write p (encodeData d) := by
  have hw := Flat.write_write db p (encodeIndex d.length) (d.map Cell.byte)
  rw [length_encodeIndex] at hw
  unfold writeData encodeData
  by_cases hd : d.length > 0
  · simp only [hd, if_true, hw]
  · obtain rfl : d = [] := List.length_eq_zero_iff.mp (by omega)
    simp

theorem Holds.setBranch (h : db.Holds Γ) {p : ℕ} {b : Branch} (hp : Γ p = some (.branch b))
    (b' : Branch) :
    (db.setBranch p b').Holds (Function.update Γ p (some (.branch b'))) :=
  h.overwrite hp (.branch b') (by simp [encodeRecord])

theorem Holds.size_setBranch (h : db.Holds Γ) {p : ℕ} {b : Branch} (hp : Γ p = some (.branch b))
    (b' : Branch) :
    (db.setBranch p b').size = db.size :=
  h.size_overwrite hp (.branch b') (by simp [encodeRecord])

theorem Holds.getNextIndex (h : db.Holds Γ) (parent : ℕ) :
    (db.getNextIndex parent).2.Holds (Function.update Γ db.size (some (.branch (.new parent)))) :=
  h.append (.branch (.new parent))

theorem Holds.allocate (h : db.Holds Γ) (d : BString) :
    (db.allocate d).2.Holds (Function.update Γ db.size (some (.blob d))) := by
  simp only [Database.allocate, writeData_eq]
  exact h.append (.blob d)

theorem Holds.setData (h : db.Holds Γ) {p : ℕ} {d d' : BString} (hp : Γ p = some (.blob d))
    (hl : d'.length = d.length) :
    (db.setData p d').Holds (Function.update Γ p (some (.blob d'))) := by
  simp only [Database.setData, writeData_eq]
  exact h.overwrite hp (.blob d') (by simp [encodeRecord, hl])

theorem Holds.size_setData (h : db.Holds Γ) {p : ℕ} {d d' : BString} (hp : Γ p = some (.blob d))
    (hl : d'.length = d.length) : (db.setData p d').size = db.size := by
  simp only [Database.setData, writeData_eq]
  exact h.size_overwrite hp (.blob d') (by simp [encodeRecord, hl])

theorem Holds.deleteData (h : db.Holds Γ) {p : ℕ} {b : Branch} (hp : Γ p = some (.branch b)) :
    (db.deleteData p).Holds (Function.update Γ p (some (.branch { b with dataIndex := 0 }))) := by
  simp only [Database.deleteData, h.getBranch hp]
  by_cases hd : b.dataIndex = 0
  · have hb : { b with dataIndex := 0 } = b := by cases b; simp_all
    simp only [hd, ne_eq, not_true, if_false, hb]
    rwa [Function.update_eq_self_iff.mpr hp.symm]
  · simp only [ne_eq, hd, not_false_iff, if_true]
    exact h.setBranch hp _

theorem Holds.size_deleteData (h : db.Holds Γ) {p : ℕ} {b : Branch} (hp : Γ p = some (.branch b)) :
    (db.deleteData p).size = db.size := by
  simp only [Database.deleteData, h.getBranch hp]
  split_ifs
  · exact h.size_setBranch hp _
  · rfl

theorem Holds.hasData (h : db.Holds Γ) {p : ℕ} {b : Branch} (hp : Γ p = some (.branch b)) :
    db.hasData p = (b.dataIndex != 0) := by
  rw [Database.hasData, h.getBranch hp]

/-- The file of a new database holds the root. -/
theorem holds_create : create.Holds (Function.update (fun _ => none) 0 (some (.branch (.new 0)))) :=
  (Flat.holds_none encodeRecord ⟨0, fun _ => .byte 0⟩).append (.branch (.new 0))

end Database

end BeeFish
