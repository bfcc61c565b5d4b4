/-
# The counter operators of a path

A path counts with `++p`, `p++`, `--p` and `p--` (Database/Path.hpp). Each of
them reads the data of its branch, an index of 64 bits, and stores the next
count; without data each has a count of its own to store. That of `p--` is one
and not zero, so a path that has no data counts like a counter that starts at
zero if and only if `p--` is not the first operation, as long as the counter
fits in an index (`counter_exact`).

Key definitions: `CounterOp`, `CounterOp.run`, `Path.observe`,
`CounterOp.expected`.
-/
import BeeFish.Counter

namespace BeeFish

namespace Path

/-- `Path::operator ++ ()` -/
def preIncrement (path : Path) : DatabaseM ℕ := do
  let count ← (do
    if ← path.hasDataNow then
      let count ← path.getDataAs ℕ
      return nextIndex count
    else return 1)
  path.setDataTo count
  return count

/-- Below the end of the range of an `Index` the count is the next natural number. -/
theorem preIncrement_eq_increment {path : Path} {db : Database}
    (h : ofData (Path.getData db path) + 1 < indexRange) :
    path.preIncrement.run db = path.increment.run db := by
  have hnext : nextIndex (ofData (Path.getData db path)) = ofData (Path.getData db path) + 1 :=
    Nat.mod_eq_of_lt h
  simp only [preIncrement, increment, StateT.run, StateT.bind, bind, hasDataNow, getDataAs, look]
  cases Path.hasData db path <;> simp [StateT.bind, bind, pure_apply, look, hnext]

/-- `Path::operator ++ (int)` -/
def postIncrement (path : Path) : DatabaseM ℕ := do
  let (existingCount, count) ← (do
    if ← path.hasDataNow then
      let count ← path.getDataAs ℕ
      return (count, nextIndex count)
    else return (0, 1))
  path.setDataTo count
  return existingCount

/-- `Path::operator -- (int)` -/
def postDecrement (path : Path) : DatabaseM ℕ := do
  let (existingCount, count) ← (do
    if ← path.hasDataNow then
      let count ← path.getDataAs ℕ
      return (count, if count > 0 then count - 1 else count)
    else return (0, 1))
  path.setDataTo count
  return existingCount

end Path

/-- An operation of a counter. -/
inductive CounterOp where
  | preIncrement
  | postIncrement
  | preDecrement
  | postDecrement
  deriving DecidableEq, Repr

namespace CounterOp

/-- The operation on a path; the answer is what it returns. -/
def run (path : Path) : CounterOp → DatabaseM ℕ
  | preIncrement => path.preIncrement
  | postIncrement => path.postIncrement
  | preDecrement => path.preDecrement
  | postDecrement => path.postDecrement

end CounterOp

/-- An operation, and what it returned and the counter that is stored after
it. -/
def Path.observe (path : Path) (op : CounterOp) : DatabaseM (ℕ × Option ℕ) := do
  let result ← op.run path
  let stored ← (do if ← path.hasDataNow then return some (← path.getDataAs ℕ) else return none)
  return (result, stored)

/-! ### The counter -/

namespace CounterOp

/-- Plus one, or minus one and not below zero. -/
def apply (count : ℕ) : CounterOp → ℕ
  | preIncrement | postIncrement => count + 1
  | preDecrement | postDecrement => count - 1

/-- The operators before the path return the new count, those behind it the
old one. -/
def returned (count : ℕ) : CounterOp → ℕ
  | op@preIncrement | op@preDecrement => op.apply count
  | postIncrement | postDecrement => count

/-- What the operations of a counter return, and the counter after each. -/
def expected : ℕ → List CounterOp → List (ℕ × Option ℕ)
  | _, [] => []
  | count, op :: ops => (op.returned count, some (op.apply count)) :: expected (op.apply count) ops

/-- The counter after the operations. -/
def total (count : ℕ) (ops : List CounterOp) : ℕ := ops.foldl apply count

/-! ### The stored counter -/

/-- What an operation returns and what it stores, over the data there is. -/
def next : CounterOp → Option ℕ → ℕ × ℕ
  | preIncrement, some count => (nextIndex count, nextIndex count)
  | preIncrement, none => (1, 1)
  | postIncrement, some count => (count, nextIndex count)
  | postIncrement, none => (0, 1)
  | preDecrement, some count => (count - 1, count - 1)
  | preDecrement, none => (0, 0)
  | postDecrement, some count => (count, count - 1)
  | postDecrement, none => (0, 1)

/-- What the operations return and store. -/
def observed : Option ℕ → List CounterOp → List (ℕ × Option ℕ)
  | _, [] => []
  | stored, op :: ops =>
    ((op.next stored).1, some (op.next stored).2) :: observed (some (op.next stored).2) ops

theorem next_some (op : CounterOp) {count : ℕ} (h : op.apply count < indexRange) :
    op.next (some count) = (op.returned count, op.apply count) := by
  cases op <;> simp [next, returned, apply] at h ⊢ <;> exact Nat.mod_eq_of_lt h

/-- A counter that does not fit is not what is stored. -/
theorem next_some_overflow (op : CounterOp) {count : ℕ} (hc : count < indexRange)
    (h : indexRange ≤ op.apply count) :
    (op.next (some count)).2 ≠ op.apply count := by
  have hmod : (count + 1) % indexRange < indexRange := Nat.mod_lt _ (by decide)
  cases op with
  | preIncrement | postIncrement => exact (hmod.trans_le h).ne
  | preDecrement | postDecrement => exact absurd ((Nat.sub_le count 1).trans_lt hc) (not_lt.mpr h)

@[simp] theorem total_nil (count : ℕ) : total count [] = count := rfl

@[simp] theorem total_cons (count : ℕ) (op : CounterOp) (ops : List CounterOp) :
    total count (op :: ops) = total (op.apply count) ops := rfl

/-- The counter fits in an index at every time. -/
def Fits (count : ℕ) (ops : List CounterOp) : Prop := ∀ u, u <+: ops → total count u < indexRange

theorem fits_cons {count : ℕ} {op : CounterOp} {ops : List CounterOp} :
    Fits count (op :: ops) ↔ count < indexRange ∧ Fits (op.apply count) ops := by
  constructor
  · exact fun h =>
      ⟨h [] List.nil_prefix, fun u hu => h (op :: u) (List.cons_prefix_cons.mpr ⟨rfl, hu⟩)⟩
  · intro h u hu
    cases u with
    | nil => exact h.1
    | cons op' u =>
      obtain ⟨rfl, hu'⟩ := List.cons_prefix_cons.mp hu
      exact h.2 u hu'

/-- Over a stored count the operations do what they should as long as the
counter fits. -/
theorem observed_some : ∀ (ops : List CounterOp) {count : ℕ}, count < indexRange →
    (observed (some count) ops = expected count ops ↔ Fits count ops)
  | [], count, hc => by
    have hfits : Fits count [] := fun u hu => by rwa [List.prefix_nil.mp hu]
    simp [observed, expected, hfits]
  | op :: ops, count, hc => by
    rw [fits_cons, observed, expected, List.cons.injEq]
    by_cases hop : op.apply count < indexRange
    · rw [next_some op hop, observed_some ops hop]
      simp [hc]
    · have hne := next_some_overflow op hc (not_lt.mp hop)
      have hfits : ¬ Fits (op.apply count) ops := fun h => hop (h [] List.nil_prefix)
      simp [hfits, hne]

/-- Without data they do so if the first is not `p--`. -/
theorem observed_none (ops : List CounterOp) :
    observed none ops = expected 0 ops ↔ ops.head? ≠ some postDecrement ∧ Fits 0 ops := by
  cases ops with
  | nil =>
    have hfits : Fits 0 [] := fun u hu => by
      rw [List.prefix_nil.mp hu]
      decide
    simp [observed, expected, hfits]
  | cons op ops =>
    rw [fits_cons, observed, expected]
    have hzero : 0 < indexRange := by decide
    have hone : 1 < indexRange := by decide
    cases op with
    | preIncrement | postIncrement =>
      rw [List.cons.injEq]
      simpa [next, apply, returned, hzero] using observed_some ops hone
    | preDecrement =>
      rw [List.cons.injEq]
      simpa [next, apply, returned, hzero] using observed_some ops hzero
    | postDecrement => simp [next, apply, returned]

end CounterOp

/-! ### On the file -/

/-- The file has a branch at the index, with a count or without data. -/
def Database.Tally (db : Database) (index : ℕ) (stored : Option ℕ) : Prop :=
  ∃ Γ L w n, Rep db Γ L ∧ L w = some n ∧ n.place = index ∧ n.value = stored.map toData

section

variable {db : Database} {path : Path} {stored : Option ℕ}

theorem Database.Tally.hasData (h : db.Tally path.index stored) :
    path.hasDataNow db = some (stored.isSome, db) := by
  obtain ⟨Γ, L, w, n, h, hw, he, hv⟩ := h
  have := h.hasData hw path.count
  rw [he, hv, Option.isSome_map] at this
  exact congrArg (fun b => some (b, db)) this

theorem Database.Tally.getData {count : ℕ} (h : db.Tally path.index (some count)) :
    path.getDataAs ℕ db = some (count, db) := by
  obtain ⟨Γ, L, w, n, h, hw, he, hv⟩ := h
  have hget := h.getData hw path.count
  rw [he, hv] at hget
  have hcount : ofData (Path.getData db path) = count := by
    rw [hget]
    exact ofData_toData count
  exact congrArg (fun c => some (c, db)) hcount

theorem Database.Tally.setData (h : db.Tally path.index stored) (count : ℕ) :
    ∃ db', path.setDataTo count db = some ((), db') ∧ db'.Tally path.index (some count) := by
  obtain ⟨Γ, L, w, n, h, hw, he, -⟩ := h
  obtain ⟨Γ', i, -, h', -⟩ := h.setData hw path.count (toData count)
  rw [he] at h'
  exact ⟨_, rfl, Γ', _, w, ⟨path.index, some (i, toData count)⟩, h', Layout.put_same .., rfl, rfl⟩

/-- An operation on the file. -/
theorem Database.Tally.run (h : db.Tally path.index stored) (op : CounterOp) :
    ∃ db', op.run path db = some ((op.next stored).1, db') ∧
      db'.Tally path.index (some (op.next stored).2) := by
  obtain ⟨db', hset, h'⟩ := h.setData (op.next stored).2
  refine ⟨db', ?_, h'⟩
  have hhas := h.hasData
  cases stored with
  | none =>
    cases op <;>
      simp [CounterOp.run, Path.preIncrement, Path.postIncrement, Path.preDecrement,
        Path.postDecrement,
        CounterOp.next, StateT.bind, bind, pure_apply, hhas] at hset ⊢ <;>
      simp [hset]
  | some count =>
    have hget := h.getData
    cases op <;>
      simp [CounterOp.run, Path.preIncrement, Path.postIncrement, Path.preDecrement,
        Path.postDecrement,
        CounterOp.next, StateT.bind, bind, pure_apply, hhas, hget, Path.ite_pred] at hset ⊢ <;>
      simp [hset]

/-- An operation, and what is stored after it. -/
theorem Database.Tally.observe (h : db.Tally path.index stored) (op : CounterOp) :
    ∃ db', path.observe op db = some (((op.next stored).1, some (op.next stored).2), db') ∧
      db'.Tally path.index (some (op.next stored).2) := by
  obtain ⟨db', hrun, h'⟩ := h.run op
  refine ⟨db', ?_, h'⟩
  simp [Path.observe, StateT.bind, bind, pure_apply, hrun, h'.hasData, h'.getData]

/-- A run of operations on the file. -/
theorem Database.Tally.observes : ∀ (ops : List CounterOp) {db : Database} {stored : Option ℕ},
    db.Tally path.index stored → ∃ db', ops.mapM path.observe db =
      some (CounterOp.observed stored ops, db')
  | [], db, _, _ => ⟨db, rfl⟩
  | op :: ops, _, stored, h => by
    obtain ⟨db₁, h₁, ht⟩ := h.observe op
    obtain ⟨db', h'⟩ := observes ops ht
    refine ⟨db', ?_⟩
    simp [List.mapM_cons, StateT.bind, bind, pure_apply, h₁, h', CounterOp.observed]

end

/-- **A path without data counts exactly when `p--` does not come first.**
After any run of operations, at any path that has no data, let any sequence of
counter operations be made. What they return and what is stored after each of
them is the fold of plus one and minus one (not below zero) from zero, if and
only if the first is not `p--` and the counter fits in an index at every
time. -/
theorem counter_exact (ops : List Op) (path : List Key) (counts : List CounterOp) :
    ∃ (answers : List Answer) (db : Database), runAll .create ops = some (answers, db) ∧
      let (node, db) := Path.getAll db .root path
      Path.hasData db node = false → ∃ (observed : List (ℕ × Option ℕ)) (db' : Database),
        counts.mapM node.observe db = some (observed, db') ∧
          (observed = CounterOp.expected 0 counts ↔
            counts.head? ≠ some .postDecrement ∧ ∀ u, u <+: counts →
              CounterOp.total 0 u < indexRange) := by
  obtain ⟨db, he, Γ, L, h, -⟩ := stores_create.runAll ops
  obtain ⟨r, hr, h0⟩ := h.root
  obtain ⟨Γ', L', n, hn, h', hw, -⟩ := h.getAll path (p := .root) hr h0.symm
  refine ⟨_, db, he, fun hdata => ?_⟩
  have hvalue : n.value = none := by
    have := h'.hasData hw (Path.getAll db .root path).1.count
    rw [hn, hdata] at this
    simpa using this
  have htally : (Path.getAll db .root path).2.Tally (Path.getAll db .root path).1.index none :=
    ⟨Γ', L', _, n, h', hw, hn, hvalue⟩
  obtain ⟨db', hrun⟩ := htally.observes counts
  exact ⟨_, db', hrun, CounterOp.observed_none counts⟩

/-- The root of a new file goes up and down. -/
theorem counter_exact_root :
    ∃ db', [CounterOp.preDecrement, .postIncrement, .preIncrement, .postDecrement].mapM
      Path.root.observe
    .create = some ([(0, some 0), (0, some 1), (2, some 2), (2, some 1)], db') := by
  obtain ⟨answers, db, hrun, h⟩ :=
    counter_exact [] [] [.preDecrement, .postIncrement, .preIncrement, .postDecrement]
  obtain ⟨-, rfl⟩ := Prod.mk.inj (Option.some.inj hrun)
  obtain ⟨observed, db', hmap, hiff⟩ := h (by decide +kernel)
  have he : observed = [(0, some 0), (0, some 1), (2, some 2), (2, some 1)] := by
    apply hiff.mpr
    refine ⟨by decide, fun u hu => ?_⟩
    rw [← List.mem_inits] at hu
    revert u
    decide +kernel
  exact ⟨db', he ▸ hmap⟩

/-- At the root of a new file `p--` stores one. -/
theorem postDecrement_stores_one : Path.hasData .create .root = false ∧
    (∃ db', [CounterOp.postDecrement].mapM Path.root.observe .create = some ([(0, some 1)], db')) ∧
    CounterOp.expected 0 [.postDecrement] ≠ [(0, some 1)] := by
  have htally : Database.create.Tally Path.root.index none :=
    ⟨_, _, [], _, Rep.create, Layout.put_same .., rfl, rfl⟩
  obtain ⟨db', hrun⟩ := htally.observes [.postDecrement]
  exact ⟨by decide +kernel, ⟨db', hrun⟩, by decide⟩

end BeeFish
