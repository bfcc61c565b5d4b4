/-
# Setting data while others go

`setData` reads a branch, allocates and writes its copy of the branch back
under the lock of the index; `goLeft` and `goRight` read the branch again and
write their copy back under the lock of the file. Neither lock keeps the other
out. If a process writes the branch while another holds a copy that it will
write back, the one that writes last undoes what the other did
(`setData_loses_link`). In a run without such a step (`System.Undisturbed`)
the copies are the record as it stands and nothing is lost
(`setData_undisturbed`).

Key definitions: `System.setting`, `Process.HoldsCopy`, `System.Undisturbed`.
-/
import BeeFish.Processes
import BeeFish.Store

namespace BeeFish

open Interleave

/-- One process sets data at the index and each other goes once. -/
def System.setting {ι : Type} [DecidableEq ι] (db : Database) (index : ℕ) (setter : ι)
    (value : BString) (bit : ι → Bool) :
    System ι :=
  ⟨.unlocked ι db, fun p => .new index [if p = setter then .setData value else .go (bit p)]⟩

/-! ### Copies of the branch -/

/-- Between reading the branch and writing it back. -/
def Go.holdsCopy : Go → Bool
  | lockNext _ => true
  | size _ => true
  | writeNext _ _ => true
  | unlockNext _ _ => true
  | setBranch _ => true
  | _ => false

/-- The branch is not written back if the data has the same size. -/
def SetData.holdsCopy (db : Database) (value : BString) : SetData → Bool
  | getData branch =>
    decide (branch.dataIndex = 0 ∨ (db.getData branch.dataIndex).length ≠ value.length)
  | deleteData _ => true
  | deleteDataSet _ _ => true
  | allocate _ => true
  | size _ => true
  | writeData _ _ => true
  | allocated _ _ => true
  | setBranch _ => true
  | _ => false

/-- The next step writes the branch. -/
def Go.writes : Go → Bool
  | setBranch _ => true
  | _ => false

def SetData.writes : SetData → Bool
  | deleteDataSet _ _ => true
  | setBranch _ => true
  | _ => false

namespace Process

def holdsCopy (db : Database) (t : Process) : Bool :=
  match t.pc with
  | .idle => false
  | .go _ pc => pc.holdsCopy
  | .setData value pc => pc.holdsCopy db value

def writes (t : Process) : Bool :=
  match t.pc with
  | .idle => false
  | .go _ pc => pc.writes
  | .setData _ pc => pc.writes

end Process

/-- A process does not write a branch while another holds a copy of it. -/
def System.Undisturbed {ι : Type} (s : System ι) (p : ι) : Prop :=
  (s.locals p).writes = true → ∀ q, q ≠ p → (s.locals q).index = (s.locals p).index →
    (s.locals q).holdsCopy s.shared.database = false

/-! ### What a process knows -/

/-- The file holds the branch at the index; the links it had at first are
kept. -/
structure OnBranch (index : ℕ) (first : Branch) (g : Heap × Branch) (db : Database) : Prop where
  holds : db.Holds g.1
  record : g.1 index = some (.branch g.2)
  data : g.2.dataIndex ≠ 0 → ∃ d, g.1 g.2.dataIndex = some (.blob d)
  links : ∀ c, first.child c ≠ 0 → g.2.child c = first.child c

/-- What a process that goes knows of the branch. -/
def Go.Sees (db : Database) (branch : Branch) (bit : Bool) : Go → Prop
  | getBranch => True
  | lock => True
  | getBranchAgain => True
  | lockNext copy => copy = branch ∧ branch.child bit = 0
  | size copy => copy = branch ∧ branch.child bit = 0
  | writeNext copy new => copy = branch ∧ branch.child bit = 0 ∧ new = db.size
  | unlockNext copy new => copy = branch ∧ branch.child bit = 0 ∧ new ≠ 0
  | setBranch copy => ∃ new, copy = branch.setChild bit new ∧ branch.child bit = 0 ∧ new ≠ 0
  | unlock copy => copy.child bit = branch.child bit ∧ branch.child bit ≠ 0

/-- The branch has the data. -/
def HasValue (g : Heap × Branch) (value : BString) : Prop :=
  g.2.dataIndex ≠ 0 ∧ g.1 g.2.dataIndex = some (.blob value)

/-- What a process that sets data knows of the branch. -/
def SetData.Sees (db : Database) (g : Heap × Branch) (value : BString) : SetData → Prop
  | lock => True
  | count => True
  | lockFirst => True
  | unlockFirst => True
  | unlockWait => True
  | lockWait => True
  | getBranch => True
  | getData copy =>
    copy.dataIndex = g.2.dataIndex ∧ ((getData copy).holdsCopy db value = true → copy = g.2)
  | deleteData copy => copy = g.2 ∧ g.2.dataIndex ≠ 0
  | deleteDataSet copy read =>
    copy = { g.2 with dataIndex := 0 } ∧ read = { g.2 with dataIndex := 0 }
  | allocate copy => copy = g.2 ∧ g.2.dataIndex = 0
  | size copy => copy = g.2 ∧ g.2.dataIndex = 0
  | writeData copy dataIndex => copy = g.2 ∧ dataIndex = db.size
  | allocated copy dataIndex => copy = g.2 ∧ dataIndex ≠ 0 ∧ g.1 dataIndex = some (.blob value)
  | setBranch copy => ∃ dataIndex, copy = { g.2 with dataIndex := dataIndex } ∧ dataIndex ≠ 0 ∧
      g.1 dataIndex = some (.blob value)
  | setData copy => copy.dataIndex = g.2.dataIndex ∧ g.2.dataIndex ≠ 0 ∧
      ∃ d, g.1 g.2.dataIndex = some (.blob d) ∧ value.length = d.length
  | lockEnd _ => HasValue g value
  | unlockIndex _ => HasValue g value
  | discount _ => HasValue g value
  | unlockEnd _ => HasValue g value

section

variable {ι : Type} [DecidableEq ι]

/-- What a process that goes once from the index knows. -/
structure Going (index : ℕ) (bit : Bool) (p : ι) (g : Heap × Branch) (x : Shared ι)
    (t : Process) : Prop where
  depth : x.mutex.depth p = t.pc.depth
  sees :
    match t.pc with
    | .idle =>
      t.index = index ∧ t.todo = [.go bit] ∨ t.todo = [] ∧ t.index = g.2.child bit ∧ t.index ≠ 0
    | .go bit' pc => t.index = index ∧ t.todo = [] ∧ bit' = bit ∧ pc.Sees x.database g.2 bit
    | .setData _ _ => False

/-- What the process that sets the data knows. -/
structure Setting (index : ℕ) (value : BString) (p : ι) (g : Heap × Branch) (x : Shared ι)
    (t : Process) : Prop where
  depth : x.mutex.depth p = t.pc.depth
  index : t.index = index
  sees :
    match t.pc with
    | .idle => t.todo = [.setData value] ∨ t.todo = [] ∧ HasValue g value
    | .go _ _ => False
    | .setData value' pc => t.todo = [] ∧ value' = value ∧ pc.Sees x.database g value

/-! ### What a step does to the others -/

variable {index : ℕ} {first : Branch} {value : BString} {bit : Bool} {g g' : Heap × Branch}
    {x x' : Shared ι} {p q : ι}
  {t : Process} {d : ℕ}

/-- A step of `p` keeps the links, and the file grows only if `p` has locked
it. -/
structure Change (p : ι) (g g' : Heap × Branch) (x x' : Shared ι) : Prop where
  links : ∀ c, g.2.child c ≠ 0 → g'.2.child c = g.2.child c
  size : x'.database.size = x.database.size ∨ 0 < x.mutex.depth p

/-- The data of the branch stays, and all blobs. -/
structure KeepsData (g g' : Heap × Branch) : Prop where
  dataIndex : g'.2.dataIndex = g.2.dataIndex
  blob : ∀ {i d}, g.1 i = some (.blob d) → g'.1 i = some (.blob d)

theorem Change.refl (p : ι) (g : Heap × Branch) (h : x'.database = x.database) :
    Change p g g x x' :=
  ⟨fun _ _ => rfl, Or.inl (by rw [h])⟩

theorem Change.size_eq (h : Change p g g' x x') (hq : q ≠ p) (hd : 0 < x.mutex.depth q) :
    x'.database.size = x.database.size :=
  h.size.resolve_right fun hp => hq (Mutex.eq_of_depth_pos hd hp)

theorem Go.Sees.of_change {pc : Go} (h : pc.Sees x.database g.2 bit) (hc : Change p g g' x x')
    (hq : q ≠ p)
    (hd : x.mutex.depth q = pc.depth) (hcopy : g'.2 = g.2 ∨ pc.holdsCopy = false) :
    pc.Sees x'.database g'.2 bit := by
  cases pc with
  | unlock copy =>
    obtain ⟨he, h0⟩ := h
    have hl := hc.links bit h0
    exact ⟨he.trans hl.symm, hl ▸ h0⟩
  | writeNext copy new =>
    have hg := hcopy.resolve_right (by simp [Go.holdsCopy])
    obtain ⟨he, h0, hs⟩ := h
    have hsize := hc.size_eq hq (by rw [hd]; exact Nat.two_pos)
    rw [hg]
    exact ⟨he, h0, hs.trans hsize.symm⟩
  | getBranch => trivial
  | lock => trivial
  | getBranchAgain => trivial
  | lockNext copy => exact (hcopy.resolve_right (by simp [Go.holdsCopy])).symm ▸ h
  | size copy => exact (hcopy.resolve_right (by simp [Go.holdsCopy])).symm ▸ h
  | unlockNext copy new => exact (hcopy.resolve_right (by simp [Go.holdsCopy])).symm ▸ h
  | setBranch copy => exact (hcopy.resolve_right (by simp [Go.holdsCopy])).symm ▸ h

theorem Going.of_change (h : Going index bit q g x t) (hc : Change p g g' x x') (ht : Turn p x x' d)
    (hq : q ≠ p)
    (hcopy : g'.2 = g.2 ∨ t.holdsCopy x.database = false) : Going index bit q g' x' t where
  depth := (ht.others q hq).trans h.depth
  sees := by
    have hs := h.sees
    have hd := h.depth
    unfold Process.holdsCopy at hcopy
    cases hpc : t.pc with
    | idle =>
      rw [hpc] at hs
      rcases hs with hs | ⟨htodo, hi, h0⟩
      · exact Or.inl hs
      · exact Or.inr ⟨htodo, hi.trans (hc.links bit (hi ▸ h0)).symm, h0⟩
    | go bit' pc =>
      rw [hpc] at hs hd hcopy
      exact ⟨hs.1, hs.2.1, hs.2.2.1, hs.2.2.2.of_change hc hq hd hcopy⟩
    | setData v pc =>
      rw [hpc] at hs
      exact hs

theorem HasValue.of_keeps (h : HasValue g value) (hk : KeepsData g g') : HasValue g' value := by
  unfold HasValue
  rw [hk.dataIndex]
  exact ⟨h.1, hk.blob h.2⟩

theorem OnBranch.getData_eq {db db' : Database} (h : OnBranch index first g db)
    (h' : OnBranch index first g' db')
    (hk : KeepsData g g') : db'.getData g.2.dataIndex = db.getData g.2.dataIndex := by
  by_cases h0 : g.2.dataIndex = 0
  · rw [h0]
    rfl
  · obtain ⟨d, hd⟩ := h.data h0
    rw [h.holds.getData hd h0, h'.holds.getData (hk.blob hd) h0]

theorem SetData.Sees.of_change {pc : SetData} (h : pc.Sees x.database g value)
    (hx : OnBranch index first g x.database)
    (hx' : OnBranch index first g' x'.database) (hc : Change p g g' x x') (hk : KeepsData g g')
    (hq : q ≠ p)
    (hd : x.mutex.depth q = pc.depth) (hcopy : g'.2 = g.2 ∨ pc.holdsCopy x.database value = false) :
    pc.Sees x'.database g' value := by
  cases pc with
  | getData copy =>
    obtain ⟨he, hb⟩ := h
    refine ⟨he.trans hk.dataIndex.symm, fun hh => ?_⟩
    have hsame : (getData copy).holdsCopy x.database value = true := by
      rw [← hh]
      simp only [SetData.holdsCopy, he, hx.getData_eq hx' hk]
    rw [hb hsame]
    exact (hcopy.resolve_right (by simp [hsame])).symm
  | deleteData copy =>
    have hg := hcopy.resolve_right (by simp [SetData.holdsCopy])
    unfold SetData.Sees
    rw [hg]
    exact h
  | deleteDataSet copy read =>
    have hg := hcopy.resolve_right (by simp [SetData.holdsCopy])
    unfold SetData.Sees
    rw [hg]
    exact h
  | allocate copy =>
    have hg := hcopy.resolve_right (by simp [SetData.holdsCopy])
    unfold SetData.Sees
    rw [hg]
    exact h
  | size copy =>
    have hg := hcopy.resolve_right (by simp [SetData.holdsCopy])
    unfold SetData.Sees
    rw [hg]
    exact h
  | writeData copy dataIndex =>
    have hg := hcopy.resolve_right (by simp [SetData.holdsCopy])
    unfold SetData.Sees
    rw [hg, hc.size_eq hq (by rw [hd]; exact Nat.one_pos)]
    exact h
  | allocated copy dataIndex =>
    have hg := hcopy.resolve_right (by simp [SetData.holdsCopy])
    obtain ⟨he, h0, hb⟩ := h
    exact ⟨he.trans hg.symm, h0, hk.blob hb⟩
  | setBranch copy =>
    have hg := hcopy.resolve_right (by simp [SetData.holdsCopy])
    obtain ⟨dataIndex, he, h0, hb⟩ := h
    exact ⟨dataIndex, by rw [he, hg], h0, hk.blob hb⟩
  | setData copy =>
    obtain ⟨he, h0, d, hb, hl⟩ := h
    unfold SetData.Sees
    rw [hk.dataIndex]
    exact ⟨he, h0, d, hk.blob hb, hl⟩
  | lockEnd _ => exact HasValue.of_keeps h hk
  | unlockIndex _ => exact HasValue.of_keeps h hk
  | discount _ => exact HasValue.of_keeps h hk
  | unlockEnd _ => exact HasValue.of_keeps h hk
  | lock => trivial
  | count => trivial
  | lockFirst => trivial
  | unlockFirst => trivial
  | unlockWait => trivial
  | lockWait => trivial
  | getBranch => trivial

theorem Setting.of_change (h : Setting index value q g x t) (hx : OnBranch index first g x.database)
    (hx' : OnBranch index first g' x'.database) (hc : Change p g g' x x') (hk : KeepsData g g')
    (ht : Turn p x x' d)
    (hq : q ≠ p) (hcopy : g'.2 = g.2 ∨ t.holdsCopy x.database = false) :
    Setting index value q g' x' t where
  depth := (ht.others q hq).trans h.depth
  index := h.index
  sees := by
    have hs := h.sees
    have hd := h.depth
    unfold Process.holdsCopy at hcopy
    cases hpc : t.pc with
    | idle =>
      rw [hpc] at hs
      exact hs.imp_right fun hs => ⟨hs.1, hs.2.of_keeps hk⟩
    | go bit pc =>
      rw [hpc] at hs
      exact hs
    | setData v pc =>
      rw [hpc] at hs hd hcopy
      obtain ⟨htodo, rfl, hs⟩ := hs
      exact ⟨htodo, rfl, hs.of_change hx hx' hc hk hq hd hcopy⟩

/-! ### A step of going -/

/-- Where a process stands after a step of going. -/
def Go.Saw (db : Database) (branch : Branch) (bit : Bool) : Go ⊕ ℕ → Prop
  | .inl pc => pc.Sees db branch bit
  | .inr i => i = branch.child bit ∧ i ≠ 0

namespace OnBranch

variable {db : Database}

theorem pos (h : OnBranch index first g db) : 0 < db.size :=
  Nat.zero_lt_of_lt (h.holds.lt_size h.record)

theorem ne_size (h : OnBranch index first g db) {i : ℕ} {r : Record} (hi : g.1 i = some r) :
    i ≠ db.size := by
  have := h.holds.lt_size hi
  omega

/-- A record at the end of the file. -/
theorem append (h : OnBranch index first g db) {db' : Database} {r : Record}
    (hdb : db'.Holds (Function.update g.1 db.size (some r))) :
    OnBranch index first (Function.update g.1 db.size (some r), g.2) db' ∧
      KeepsData g (Function.update g.1 db.size (some r), g.2) := by
  have hkeep : ∀ {i r'}, g.1 i = some r' → Function.update g.1 db.size (some r) i = some r' :=
    fun hi => by
    rw [Function.update_of_ne (h.ne_size hi), hi]
  refine ⟨⟨hdb, hkeep h.record, fun h0 => ?_, h.links⟩, rfl, hkeep⟩
  obtain ⟨d, hd⟩ := h.data h0
  exact ⟨d, hkeep hd⟩

/-- The branch written with other links. -/
theorem setBranch (h : OnBranch index first g db) (branch : Branch)
    (hlinks : ∀ c, g.2.child c ≠ 0 → branch.child c = g.2.child c)
    (hdata : branch.dataIndex ≠ 0 → ∃ d, g.1 branch.dataIndex = some (.blob d)) :
    OnBranch index first (Function.update g.1 index (some (.branch branch)), branch)
      (db.setBranch index branch) ∧
      ∀ {i d}, g.1 i = some (.blob d) →
        Function.update g.1 index (some (.branch branch)) i = some (.blob d) := by
  have hkeep : ∀ {i d}, g.1 i = some (.blob d) →
      Function.update g.1 index (some (.branch branch)) i = some (.blob d) := fun {i d} hi => by
    rw [Function.update_of_ne, hi]
    rintro rfl
    rw [h.record] at hi
    cases hi
  refine ⟨⟨h.holds.setBranch h.record branch, Function.update_self .., fun h0 => ?_, fun c h0 =>
    ?_⟩, hkeep⟩
  · obtain ⟨d, hd⟩ := hdata h0
    exact ⟨d, hkeep hd⟩
  · have hl := h.links c h0
    exact (hlinks c (hl ▸ h0)).trans hl

/-- The data of the branch overwritten by data of the same size. -/
theorem setData (h : OnBranch index first g db) {d : BString}
    (hd : g.1 g.2.dataIndex = some (.blob d))
    (hl : value.length = d.length) :
    OnBranch index first (Function.update g.1 g.2.dataIndex (some (.blob value)), g.2)
      (db.setData g.2.dataIndex value) where
  holds := h.holds.setData hd hl
  record := by
    have hne : index ≠ g.2.dataIndex := fun he => by
      rw [← he, h.record] at hd
      cases hd
    exact (Function.update_of_ne hne ..).trans h.record
  data _ := ⟨value, Function.update_self ..⟩
  links := h.links

end OnBranch

omit [DecidableEq ι] in
theorem Branch.child_setChild_of_ne (branch : Branch) {bit c : Bool} (hc : c ≠ bit) (new : ℕ) :
    (branch.setChild bit new).child c = branch.child c := by
  cases bit <;> cases c <;> first | rfl | exact absurd rfl hc

omit [DecidableEq ι] in
theorem Branch.dataIndex_setChild (branch : Branch) (bit : Bool) (new : ℕ) :
    (branch.setChild bit new).dataIndex = branch.dataIndex := by
  cases bit <;> rfl

theorem KeepsData.refl (g : Heap × Branch) : KeepsData g g := ⟨rfl, id⟩

/-- One step of going from the branch, whose copy is the branch as it is. -/
theorem Go.step_sees {pc : Go} {r : Go ⊕ ℕ} (h : pc.step p index bit x = some (x', r))
    (hd : x.mutex.depth p = pc.depth) (hx : OnBranch index first g x.database)
    (hs : pc.Sees x.database g.2 bit) :
    ∃ g', Turn p x x' (r.elim Go.depth fun _ => 0) ∧ OnBranch index first g' x'.database ∧
      Change p g g' x x' ∧
      KeepsData g g' ∧ (g'.2 = g.2 ∨ pc.writes = true) ∧ Go.Saw x'.database g'.2 bit r := by
  cases pc with
  | getBranch =>
    obtain ⟨ht, rfl, rfl⟩ := Turn.of_some x h rfl hd
    rw [hx.holds.getBranch hx.record]
    by_cases h0 : g.2.child bit = 0
    · rw [if_pos h0]
      exact ⟨g, ht, hx, .refl p g rfl, .refl g, Or.inl rfl, trivial⟩
    · rw [if_neg h0]
      exact ⟨g, ht, hx, .refl p g rfl, .refl g, Or.inl rfl, rfl, h0⟩
  | lock =>
    obtain ⟨ht, hdb, rfl⟩ := Turn.of_lock h hd
    exact ⟨g, ht, hdb ▸ hx, .refl p g hdb, .refl g, Or.inl rfl, trivial⟩
  | getBranchAgain =>
    obtain ⟨ht, rfl, rfl⟩ := Turn.of_some x h rfl hd
    rw [hx.holds.getBranch hx.record]
    by_cases h0 : g.2.child bit = 0
    · rw [if_pos h0]
      exact ⟨g, ht, hx, .refl p g rfl, .refl g, Or.inl rfl, rfl, h0⟩
    · rw [if_neg h0]
      exact ⟨g, ht, hx, .refl p g rfl, .refl g, Or.inl rfl, rfl, h0⟩
  | lockNext copy =>
    obtain ⟨ht, hdb, rfl⟩ := Turn.of_lock h hd
    exact ⟨g, ht, hdb ▸ hx, .refl p g hdb, .refl g, Or.inl rfl, hs⟩
  | size copy =>
    obtain ⟨ht, rfl, rfl⟩ := Turn.of_some x h rfl hd
    exact ⟨g, ht, hx, .refl p g rfl, .refl g, Or.inl rfl, hs.1, hs.2, rfl⟩
  | writeNext copy new =>
    obtain ⟨ht, rfl, rfl⟩ := Turn.of_some x h rfl hd
    obtain ⟨hb, h0, rfl⟩ := hs
    obtain ⟨hx', hk⟩ := hx.append (hx.holds.getNextIndex index)
    exact ⟨_, ht, hx', ⟨fun _ _ => rfl, Or.inr (by rw [hd]; exact Nat.two_pos)⟩, hk, Or.inl rfl, hb,
      h0, hx.pos.ne'⟩
  | unlockNext copy new =>
    obtain ⟨ht, hdb, rfl⟩ := Turn.of_unlock h hd
    obtain ⟨rfl, h0, hnew⟩ := hs
    exact ⟨g, ht, hdb ▸ hx, .refl p g hdb, .refl g, Or.inl rfl, new, rfl, h0, hnew⟩
  | setBranch copy =>
    obtain ⟨ht, rfl, rfl⟩ := Turn.of_some x h rfl hd
    obtain ⟨new, rfl, h0, hnew⟩ := hs
    have hlinks : ∀ c, g.2.child c ≠ 0 → (g.2.setChild bit new).child c = g.2.child c := fun c hc =>
      Branch.child_setChild_of_ne _ (fun he => hc (by rw [he]; exact h0)) new
    obtain ⟨hx', hk⟩ := hx.setBranch (g.2.setChild bit new) hlinks
      (by rw [Branch.dataIndex_setChild]; exact hx.data)
    refine ⟨_, ht, hx', ⟨hlinks, Or.inl (hx.holds.size_setBranch hx.record _)⟩,
      ⟨Branch.dataIndex_setChild .., hk⟩,
      Or.inr rfl, rfl, ?_⟩
    rwa [Branch.child_setChild]
  | unlock copy =>
    obtain ⟨ht, hdb, rfl⟩ := Turn.of_unlock h hd
    exact ⟨g, ht, hdb ▸ hx, .refl p g hdb, .refl g, Or.inl rfl, hs.1, hs.1 ▸ hs.2⟩

/-! ### A step of setting data -/

/-- Where a process stands after a step of setting the data. -/
def SetData.Saw (db : Database) (g : Heap × Branch) (value : BString) : SetData ⊕ Bool → Prop
  | .inl pc => pc.Sees db g value
  | .inr _ => HasValue g value

/-- One step of setting the data of the branch, whose copy is the branch as it
is if it will be written back. -/
theorem SetData.step_sees {pc : SetData} {r : SetData ⊕ Bool}
    (h : pc.step p index value x = some (x', r))
    (hd : x.mutex.depth p = pc.depth) (hx : OnBranch index first g x.database)
    (hs : pc.Sees x.database g value) :
    ∃ g', Turn p x x' (r.elim SetData.depth fun _ => 0) ∧ OnBranch index first g' x'.database ∧
      Change p g g' x x' ∧
      (g'.2 = g.2 ∨ pc.writes = true) ∧ SetData.Saw x'.database g' value r := by
  cases pc with
  | lock =>
    obtain ⟨ht, hdb, rfl⟩ := Turn.of_lock h hd
    exact ⟨g, ht, hdb ▸ hx, .refl p g hdb, Or.inl rfl, trivial⟩
  | count =>
    obtain ⟨ht, rfl, rfl⟩ := Turn.of_some x h rfl hd
    by_cases h0 : (x.sharedMap index).counter = 0
    · rw [if_pos h0]
      exact ⟨g, ht, hx, .refl p g rfl, Or.inl rfl, trivial⟩
    · rw [if_neg h0]
      exact ⟨g, ht, hx, .refl p g rfl, Or.inl rfl, trivial⟩
  | lockFirst =>
    obtain ⟨ht, hdb, rfl⟩ := Turn.of_index h Shared.lockIndex_eq hd
    exact ⟨g, ht, hdb ▸ hx, .refl p g hdb, Or.inl rfl, trivial⟩
  | unlockFirst =>
    obtain ⟨ht, hdb, rfl⟩ := Turn.of_unlock h hd
    exact ⟨g, ht, hdb ▸ hx, .refl p g hdb, Or.inl rfl, trivial⟩
  | unlockWait =>
    obtain ⟨ht, hdb, rfl⟩ := Turn.of_unlock h hd
    exact ⟨g, ht, hdb ▸ hx, .refl p g hdb, Or.inl rfl, trivial⟩
  | lockWait =>
    obtain ⟨ht, hdb, rfl⟩ := Turn.of_index h Shared.lockIndex_eq hd
    exact ⟨g, ht, hdb ▸ hx, .refl p g hdb, Or.inl rfl, trivial⟩
  | getBranch =>
    obtain ⟨ht, rfl, rfl⟩ := Turn.of_some x h rfl hd
    rw [hx.holds.getBranch hx.record]
    exact ⟨g, ht, hx, .refl p g rfl, Or.inl rfl, rfl, fun _ => rfl⟩
  | getData copy =>
    obtain ⟨ht, rfl, rfl⟩ := Turn.of_some x h rfl hd
    obtain ⟨he, hcopy⟩ := hs
    by_cases h0 : copy.dataIndex = 0
    · rw [if_pos h0]
      exact ⟨g, ht, hx, .refl p g rfl, Or.inl rfl, hcopy (by simp [SetData.holdsCopy, h0]), he ▸ h0⟩
    obtain ⟨d, hd'⟩ := hx.data (he ▸ h0)
    have hdata : x.database.getData copy.dataIndex = d := he ▸ hx.holds.getData hd' (he ▸ h0)
    rw [if_neg h0, hdata]
    by_cases hl : d.length = value.length
    · rw [if_neg (not_not.mpr hl)]
      by_cases hv : d = value
      · rw [if_neg (not_not.mpr hv)]
        exact ⟨g, ht, hx, .refl p g rfl, Or.inl rfl, he ▸ h0, hv ▸ hd'⟩
      · rw [if_pos hv]
        exact ⟨g, ht, hx, .refl p g rfl, Or.inl rfl, he, he ▸ h0, d, hd', hl.symm⟩
    · rw [if_pos hl]
      exact ⟨g, ht, hx, .refl p g rfl, Or.inl rfl, hcopy (by simp [SetData.holdsCopy, hdata, hl]),
        he ▸ h0⟩
  | deleteData copy =>
    obtain ⟨ht, rfl, rfl⟩ := Turn.of_some x h rfl hd
    obtain ⟨rfl, h0⟩ := hs
    rw [hx.holds.getBranch hx.record, if_pos h0]
    exact ⟨g, ht, hx, .refl p g rfl, Or.inl rfl, rfl, rfl⟩
  | deleteDataSet copy read =>
    obtain ⟨ht, rfl, rfl⟩ := Turn.of_some x h rfl hd
    obtain ⟨rfl, rfl⟩ := hs
    have hlinks : ∀ c, g.2.child c ≠ 0 → ({ g.2 with dataIndex := 0 } : Branch).child c =
      g.2.child c := fun _ _ => rfl
    obtain ⟨hx', -⟩ := hx.setBranch { g.2 with dataIndex := 0 } hlinks fun hf => absurd rfl hf
    exact ⟨_, ht, hx', ⟨hlinks, Or.inl (hx.holds.size_setBranch hx.record _)⟩, Or.inr rfl, rfl, rfl⟩
  | allocate copy =>
    obtain ⟨ht, hdb, rfl⟩ := Turn.of_lock h hd
    exact ⟨g, ht, hdb ▸ hx, .refl p g hdb, Or.inl rfl, hs⟩
  | size copy =>
    obtain ⟨ht, rfl, rfl⟩ := Turn.of_some x h rfl hd
    exact ⟨g, ht, hx, .refl p g rfl, Or.inl rfl, hs.1, rfl⟩
  | writeData copy dataIndex =>
    obtain ⟨ht, rfl, rfl⟩ := Turn.of_some x h rfl hd
    obtain ⟨hb, rfl⟩ := hs
    obtain ⟨hx', -⟩ := hx.append (hx.holds.allocate value)
    exact ⟨_, ht, hx', ⟨fun _ _ => rfl, Or.inr (by rw [hd]; exact Nat.one_pos)⟩, Or.inl rfl, hb,
      hx.pos.ne',
      Function.update_self ..⟩
  | allocated copy dataIndex =>
    obtain ⟨ht, hdb, rfl⟩ := Turn.of_unlock h hd
    obtain ⟨rfl, h0, hb⟩ := hs
    exact ⟨g, ht, hdb ▸ hx, .refl p g hdb, Or.inl rfl, dataIndex, rfl, h0, hb⟩
  | setBranch copy =>
    obtain ⟨ht, rfl, rfl⟩ := Turn.of_some x h rfl hd
    obtain ⟨dataIndex, rfl, h0, hb⟩ := hs
    have hlinks :
        ∀ c, g.2.child c ≠ 0 →
          ({ g.2 with dataIndex := dataIndex } : Branch).child c = g.2.child c :=
      fun _ _ => rfl
    obtain ⟨hx', hk⟩ := hx.setBranch { g.2 with dataIndex := dataIndex } hlinks fun _ => ⟨value, hb⟩
    exact ⟨_, ht, hx', ⟨hlinks, Or.inl (hx.holds.size_setBranch hx.record _)⟩,
      Or.inr rfl, h0, hk hb⟩
  | setData copy =>
    obtain ⟨ht, rfl, rfl⟩ := Turn.of_some x h rfl hd
    obtain ⟨he, h0, d, hb, hl⟩ := hs
    rw [he] at ht ⊢
    exact ⟨_, ht, hx.setData hb hl, ⟨fun _ _ => rfl, Or.inl (hx.holds.size_setData hb hl)⟩,
      Or.inl rfl, h0,
      Function.update_self ..⟩
  | lockEnd result =>
    obtain ⟨ht, hdb, rfl⟩ := Turn.of_lock h hd
    exact ⟨g, ht, hdb ▸ hx, .refl p g hdb, Or.inl rfl, hs⟩
  | unlockIndex result =>
    obtain ⟨ht, hdb, rfl⟩ := Turn.of_index h Shared.unlockIndex_eq hd
    exact ⟨g, ht, hdb ▸ hx, .refl p g hdb, Or.inl rfl, hs⟩
  | discount result =>
    obtain ⟨ht, rfl, rfl⟩ := Turn.of_some x h rfl hd
    exact ⟨g, ht, hx, .refl p g rfl, Or.inl rfl, hs⟩
  | unlockEnd result =>
    obtain ⟨ht, hdb, rfl⟩ := Turn.of_unlock h hd
    exact ⟨g, ht, hdb ▸ hx, .refl p g hdb, Or.inl rfl, hs⟩

/-! ### A step of a process -/

variable {t' : Process}

theorem Going.step (hx : OnBranch index first g x.database) (ht : Going index bit p g x t)
    (h : t.step p x = some (x', t')) :
    ∃ g' d, OnBranch index first g' x'.database ∧ Going index bit p g' x' t' ∧ Change p g g' x x' ∧
      KeepsData g g' ∧
      Turn p x x' d ∧ (g'.2 = g.2 ∨ t.writes = true) := by
  obtain ⟨i, pc, todo, kept⟩ := t
  obtain ⟨hd, hs⟩ := ht
  unfold Process.step at h
  cases pc with
  | idle =>
    obtain ⟨y, hy, he⟩ := Option.map_eq_some_iff.mp h
    obtain ⟨rfl, rfl⟩ := Prod.mk.inj he
    rcases hs with ⟨hi, htodo⟩ | ⟨htodo, -⟩
    · obtain rfl : todo = [.go bit] := htodo
      obtain rfl := Option.some.inj hy
      exact ⟨g, _, hx, ⟨hd, hi, rfl, rfl, trivial⟩, .refl p g rfl, .refl g, ⟨rfl, fun _ _ => rfl⟩,
        Or.inl rfl⟩
    · obtain rfl : todo = [] := htodo
      cases hy
  | go bit' pc =>
    obtain ⟨⟨y, r⟩, hy, he⟩ := Option.map_eq_some_iff.mp h
    obtain ⟨rfl, rfl⟩ := Prod.mk.inj he
    obtain ⟨hi, htodo, rfl, hs⟩ := hs
    obtain rfl : i = index := hi
    obtain ⟨g', hturn, hx', hc, hk, hw, hsaw⟩ := Go.step_sees hy hd hx hs
    refine ⟨g', _, hx', ?_, hc, hk, hturn, hw⟩
    cases r with
    | inl pc' => exact ⟨hturn.self, rfl, htodo, rfl, hsaw⟩
    | inr j => exact ⟨hturn.self, Or.inr ⟨htodo, hsaw⟩⟩
  | setData v pc => exact absurd hs id

theorem Setting.step (hx : OnBranch index first g x.database) (ht : Setting index value p g x t)
    (h : t.step p x = some (x', t')) :
    ∃ g' d, OnBranch index first g' x'.database ∧ Setting index value p g' x' t' ∧
      Change p g g' x x' ∧
      Turn p x x' d ∧ (g'.2 = g.2 ∨ t.writes = true) := by
  obtain ⟨i, pc, todo, kept⟩ := t
  obtain ⟨hd, hi, hs⟩ := ht
  obtain rfl : i = index := hi
  unfold Process.step at h
  cases pc with
  | idle =>
    obtain ⟨y, hy, he⟩ := Option.map_eq_some_iff.mp h
    obtain ⟨rfl, rfl⟩ := Prod.mk.inj he
    rcases hs with htodo | ⟨htodo, -⟩
    · obtain rfl : todo = [.setData value] := htodo
      obtain rfl := Option.some.inj hy
      exact ⟨g, _, hx, ⟨hd, rfl, rfl, rfl, trivial⟩, .refl p g rfl, ⟨rfl, fun _ _ => rfl⟩,
        Or.inl rfl⟩
    · obtain rfl : todo = [] := htodo
      cases hy
  | go bit' pc => exact absurd hs id
  | setData v pc =>
    obtain ⟨⟨y, r⟩, hy, he⟩ := Option.map_eq_some_iff.mp h
    obtain ⟨rfl, rfl⟩ := Prod.mk.inj he
    obtain ⟨htodo, rfl, hs⟩ := hs
    obtain ⟨g', hturn, hx', hc, hw, hsaw⟩ := SetData.step_sees hy hd hx hs
    refine ⟨g', _, hx', ?_, hc, hturn, hw⟩
    cases r with
    | inl pc' => exact ⟨hturn.self, rfl, htodo, rfl, hsaw⟩
    | inr result => exact ⟨hturn.self, rfl, Or.inr ⟨htodo, hsaw⟩⟩

/-! ### Runs -/

/-- One process sets the data and the others go. -/
structure Part (index : ℕ) (setter : ι) (value : BString) (bit : ι → Bool) (p : ι)
    (g : Heap × Branch) (x : Shared ι)
    (t : Process) : Prop where
  setting : p = setter → Setting index value p g x t
  going : p ≠ setter → Going index (bit p) p g x t

theorem Part.index_eq {setter : ι} {bit : ι → Bool} (h : Part index setter value bit p g x t)
    (hpc : t.holdsCopy x.database = true ∨ t.writes = true) : t.index = index := by
  by_cases hp : p = setter
  · exact (h.setting hp).index
  · have hs := (h.going hp).sees
    unfold Process.holdsCopy Process.writes at hpc
    cases ht : t.pc with
    | idle => simp [ht] at hpc
    | go bit' pc =>
      rw [ht] at hs
      exact hs.1
    | setData v pc =>
      rw [ht] at hs
      exact absurd hs id

theorem undisturbed_invariant {setter : ι} {bit : ι → Bool} {s s' : System ι}
    (h : Runs Process.step System.Undisturbed s s')
    (hs : Sound (fun g x => OnBranch index first g x.database) (Part index setter value bit) g s) :
    ∃ g', Sound (fun g x => OnBranch index first g x.database) (Part index setter value bit)
      g' s' := by
  refine h.invariant ?_ hs
  intro s p g x t hok hs hstep
  -- a copy that another process holds is not changed
  have hcopy : ∀ {b : Branch}, b = g.2 ∨ (s.locals p).writes = true → ∀ q, q ≠ p →
      b = g.2 ∨ (s.locals q).holdsCopy s.shared.database = false := fun hb q hq => by
    refine hb.imp_right fun hw => ?_
    by_contra hne
    have hc : (s.locals q).holdsCopy s.shared.database = true := by simpa using hne
    have hi := ((hs.locals q).index_eq (Or.inl hc)).trans ((hs.locals p).index_eq (Or.inr hw)).symm
    exact hne (hok hw q hq hi)
  by_cases hp : p = setter
  · obtain ⟨g', d, hx', ht, hc, hturn, hw⟩ := ((hs.locals p).setting hp).step hs.shared hstep
    refine ⟨g', hx', ⟨fun _ => ht, fun hne => absurd hp hne⟩, fun q hq =>
      ⟨fun he => absurd (he.trans hp.symm) hq, ?_⟩⟩
    exact fun hqs => ((hs.locals q).going hqs).of_change hc hturn hq (hcopy hw q hq)
  · obtain ⟨g', d, hx', ht, hc, hk, hturn, hw⟩ := ((hs.locals p).going hp).step hs.shared hstep
    refine ⟨g', hx', ⟨fun he => absurd he hp, fun _ => ht⟩, fun q hq =>
      ⟨fun hqs => ?_, fun hqs => ?_⟩⟩
    · exact ((hs.locals q).setting hqs).of_change hs.shared hx' hc hk hturn hq (hcopy hw q hq)
    · exact ((hs.locals q).going hqs).of_change hc hturn hq (hcopy hw q hq)

theorem Rep.onBranch {db : Database} {Γ : Heap} {L : Layout} (h : Rep db Γ L)
    {w : List Bool} {n : Node}
    (hw : L w = some n) : OnBranch n.place (db.getBranch n.place) (Γ, L.branch w n) db where
  holds := h.holds
  record := h.branch hw
  data h0 := by
    cases hd : n.data with
    | none => exact absurd (by simp [Layout.branch, Node.dataIndex, hd]) h0
    | some d => exact ⟨d.2, by simpa [Layout.branch, Node.dataIndex, hd] using h.blob hw hd⟩
  links c _ := by rw [h.getBranch hw]

/-- Before the first step. -/
theorem setting_start {db : Database} (h : OnBranch index first g db) (setter : ι) (value : BString)
    (bit : ι → Bool) :
    Sound (fun g x => OnBranch index first g x.database) (Part index setter value bit) g
      (System.setting db index setter value bit) where
  shared := h
  locals p := by
    refine ⟨fun hp => ⟨rfl, rfl, Or.inl ?_⟩, fun hp => ⟨rfl, Or.inl ⟨rfl, ?_⟩⟩⟩
    · simp [System.setting, Process.new, hp]
    · simp [System.setting, Process.new, hp]

/-- Nothing is lost at the index: it has the links it had at first and the one
of every process that has gone, and the data that has been set. -/
structure NothingLost (index : ℕ) (first : Branch) (setter : ι) (value : BString) (bit : ι → Bool)
    (s : System ι) :
    Prop where
  first : ∀ c, first.child c ≠ 0 → (s.shared.database.getBranch index).child c = first.child c
  gone : ∀ p, p ≠ setter → (s.locals p).finished →
    (s.locals p).index ≠ 0 ∧ (s.shared.database.getBranch index).child (bit p) = (s.locals p).index
  set : (s.locals setter).finished →
    s.shared.database.hasData index = true ∧
      s.shared.database.getData (s.shared.database.getBranch index).dataIndex = value

theorem nothingLost_of_sound {setter : ι} {bit : ι → Bool} {s : System ι}
    (h : Sound (fun g x => OnBranch index first g x.database) (Part index setter value bit) g s) :
    NothingLost index first setter value bit s := by
  have hb := h.shared.holds.getBranch h.shared.record
  refine ⟨fun c hc => hb ▸ h.shared.links c hc, fun p hp hfin => ?_, fun hfin => ?_⟩
  · have hs := ((h.locals p).going hp).sees
    rw [hfin.1, hfin.2] at hs
    rcases hs with ⟨-, hf⟩ | ⟨-, hi, h0⟩
    · cases hf
    · exact ⟨h0, hb ▸ hi.symm⟩
  · have hs := ((h.locals setter).setting rfl).sees
    rw [hfin.1, hfin.2] at hs
    rcases hs with hf | ⟨-, h0, hv⟩
    · cases hf
    · rw [h.shared.holds.hasData h.shared.record, hb]
      exact ⟨by simpa using h0, h.shared.holds.getData hv h0⟩

/-- **Undisturbed, nothing is lost.** After any run of operations, at the branch
of any path, let one process set data and any number of others go left or
right. In every state of a run in which no process writes the branch while
another holds a copy of it that it will write back, the links there at first
and those of the processes that have gone lead where they went, and once the
data is set it reads back. -/
theorem setData_undisturbed (ops : List Op) (path : List Key) (setter : ι) (value : BString)
    (bit : ι → Bool) :
    ∃ (answers : List Answer) (db : Database), runAll .create ops = some (answers, db) ∧
      let (node, db) := Path.getAll db .root path
      ∀ s, Runs Process.step System.Undisturbed (System.setting db node.index setter value bit) s →
        NothingLost node.index (db.getBranch node.index) setter value bit s := by
  obtain ⟨db, he, Γ, L, h, -⟩ := stores_create.runAll ops
  obtain ⟨r, hr, h0⟩ := h.root
  obtain ⟨Γ', L', n, hn, h', hw, -⟩ := h.getAll path (p := .root) hr h0.symm
  refine ⟨_, db, he, fun s hs => ?_⟩
  rw [← hn] at hs ⊢
  obtain ⟨g, hsound⟩ := undisturbed_invariant hs (setting_start (h'.onBranch hw) setter value bit)
  exact nothingLost_of_sound hsound

end

/-- A process sets data at the root while another goes left: it reads the
branch before the link is written and writes it back after. -/
theorem setData_loses_link :
    ¬ ∀ s, Runs Process.step (fun _ _ => True)
      (System.setting .create 0 false [97] fun _ : Bool => false) s →
      (∀ p, (s.locals p).finished) → NothingLost 0 (.new 0) false [97] (fun _ => false) s := by
  intro h
  obtain ⟨s, hs, hfin, hchild⟩ : ∃ s, (System.setting .create 0 false [97] fun _ : Bool =>
    false).steps Process.step
      (List.replicate 6 false ++ List.replicate 10 true ++ List.replicate 10 false) = some s ∧
      (∀ p, (s.locals p).finished) ∧ (s.shared.database.getBranch 0).child false = 0 :=
    ⟨_, rfl, by rintro (_ | _) <;> exact ⟨rfl, rfl⟩, by decide +kernel⟩
  obtain ⟨h0, hi⟩ := (h s (.of_steps hs) hfin).gone true (by simp) (hfin true)
  exact h0 (hi.symm.trans hchild)

end BeeFish
