/-
# Counting on one path

`operator ++` of a path reads its data, and then `setData` writes the number
that follows, under a lock of its own. A process that counts while another
stands between its reading and its writing is not seen by it: the other writes
a number that does not count it. So counters lose updates as soon as two
processes count at all, and otherwise only when the counter leaves the range of
an `Index` (`increments_exact`).

Key definitions: `nextIndex`, `Increment`, `Counting`, `Counting.step`,
`Database.Counts`.
-/
import BeeFish.JSONNode
import BeeFish.Processes
import BeeFish.Store
import Mathlib.Algebra.BigOperators.Group.Finset.Piecewise
import Mathlib.Algebra.Order.BigOperators.Group.Finset

namespace BeeFish

open Interleave

/-- How many numbers an `Index` can be. -/
def indexRange : ℕ := 2 ^ 64

/-- `++count` of an `Index`. -/
def nextIndex (count : ℕ) : ℕ := (count + 1) % indexRange

theorem nextIndex_add_mod (count m : ℕ) :
    (nextIndex count + m) % indexRange = (count + (m + 1)) % indexRange := by
  rw [nextIndex, Nat.mod_add_mod, Nat.add_assoc, Nat.add_comm 1 m]

theorem nextIndex_lt (count : ℕ) : nextIndex count < indexRange := Nat.mod_lt _ (Nat.two_pow_pos 64)

/-- Where a process stands in `operator ++`. -/
inductive Increment where
  | hasData
  | getBranch
  | getData (branch : Branch)
  | setData (count : ℕ) (pc : SetData)

/-- A process that counts on a path, and how often it still will. -/
structure Counting where
  pc : Option Increment
  todo : ℕ

section

variable {ι : Type} [DecidableEq ι]

/-- The next step of `operator ++`. -/
def Increment.step (p : ι) (index : ℕ) (x : Shared ι) : Increment →
    Option (Shared ι × (Increment ⊕ ℕ))
  | hasData => some (x, .inl (if x.database.hasData index then getBranch else setData 1 .lock))
  | getBranch => some (x, .inl (getData (x.database.getBranch index)))
  | getData branch =>
    some (x, .inl (setData (nextIndex (ofData (x.database.getData branch.dataIndex))) .lock))
  | setData count pc => (pc.step p index (toData count) x).map fun
      | (x, .inl pc) => (x, .inl (setData count pc))
      | (x, .inr _) => (x, .inr count)

namespace Counting

def finished (t : Counting) : Prop := t.pc = none ∧ t.todo = 0

/-- The next step of the process. -/
def step (index : ℕ) (p : ι) (x : Shared ι) (t : Counting) : Option (Shared ι × Counting) :=
  match t.pc with
  | none =>
    match t.todo with
    | 0 => none
    | todo + 1 => some (x, ⟨some .hasData, todo⟩)
  | some pc => (pc.step p index x).map fun
      | (x, .inl pc) => (x, { t with pc := some pc })
      | (x, .inr _) => (x, { t with pc := none })

end Counting

/-- Processes that will count on the path of the index. -/
def Counting.start (db : Database) (todo : ι → ℕ) : State ι (Shared ι) Counting :=
  ⟨.unlocked ι db, fun p => ⟨none, todo p⟩⟩

end

/-- The counter at the index stands at `count`; without data it stands at
zero. -/
def Database.Counts (db : Database) (index count : ℕ) : Prop :=
  if db.hasData index then db.getData (db.getBranch index).dataIndex = toData count else count = 0

theorem Database.Counts.unique {db : Database} {index c c' : ℕ} (h : db.Counts index c)
    (h' : db.Counts index c') :
    c = c' := by
  unfold Database.Counts at h h'
  split_ifs at h h'
  · rw [← ofData_toData c, ← h, h', ofData_toData]
  · rw [h, h']

/-- The file has a branch at the index, with a counter. -/
def Database.Counter (db : Database) (index count : ℕ) : Prop :=
  ∃ Γ L w n, Rep db Γ L ∧ L w = some n ∧ n.place = index ∧
    (n.value = none ∧ count = 0 ∨ n.value = some (toData count))

section

variable {ι : Type} [DecidableEq ι] {db : Database} {Γ : Heap} {L : Layout} {w : List Bool}
    {n : Node} {index c : ℕ}

theorem Rep.counts (h : Rep db Γ L) (hw : L w = some n) : db.Counts n.place c ↔
    n.value = none ∧ c = 0 ∨ n.value = some (toData c) := by
  have hhas : db.hasData n.place = n.value.isSome := h.hasData hw 0
  have hget : db.getData (db.getBranch n.place).dataIndex = n.value.getD [] := by
    rw [h.getBranch hw]
    exact h.database_getData hw
  rw [Database.Counts, hhas, hget]
  cases n.value <;> simp

theorem Database.Counter.counts (h : db.Counter index c) : db.Counts index c := by
  obtain ⟨Γ, L, w, n, h, hw, rfl, hc⟩ := h
  exact (h.counts hw).mpr hc

theorem Rep.counter (h : Rep db Γ L) (hw : L w = some n) (hc : db.Counts n.place c) :
    db.Counter n.place c :=
  ⟨Γ, L, w, n, h, hw, rfl, (h.counts hw).mp hc⟩

/-! ### A process alone -/

/-- The part of `operator ++` that sets the data. -/
theorem Increment.alone_setData (p : ι) (count : ℕ) :
    ∀ {fuel : ℕ} {x x' : Shared ι} {pc : SetData} {result : Bool},
    Interleave.alone (SetData.step p index (toData count)) fuel x pc = some (x', result) →
    Interleave.alone (Increment.step p index) fuel x (.setData count pc) = some (x', count)
  | fuel + 1, x, x', pc, result, h => by
    obtain ⟨⟨y, r⟩, hs, h⟩ := Option.bind_eq_some_iff.mp h
    rw [Interleave.alone, Increment.step, hs]
    cases r with
    | inl pc => exact alone_setData p count h
    | inr r =>
      obtain ⟨rfl, -⟩ := Prod.mk.inj (Option.some.inj h)
      rfl

/-- Setting the data alone sets the counter. -/
theorem Increment.sets (p : ι) (h : db.Counter index c) (count : ℕ) : ∃ db',
    Returns (Interleave.alone (Increment.step p index) · (.unlocked ι db) (.setData count .lock))
      (.unlocked ι db', count) ∧
      db'.Counter index count := by
  obtain ⟨Γ, L, w, n, h, hw, rfl, -⟩ := h
  obtain ⟨Γ', i, -, h', -⟩ := h.setData hw 0 (toData count)
  obtain ⟨k, hk⟩ := SetData.alone p db n.place 0 (toData count)
  exact ⟨_, ⟨k, fun fuel hf => alone_setData p count (hk fuel hf)⟩, Γ', _, w, _, h',
    Layout.put_same .., rfl, Or.inr rfl⟩

/-- A process that stands before `setData` has read the counter. -/
theorem Increment.reads (p : ι) (h : db.Counter index c) {s : State ι (Shared ι) Counting} {m : ℕ}
    (hs : s.shared = .unlocked ι db) (hl : s.locals p = ⟨none, m + 1⟩) : ∃ k,
    s.steps (Counting.step index) (List.replicate k p) =
      some ⟨s.shared, Function.update s.locals p ⟨some (.setData (nextIndex c) .lock), m⟩⟩ := by
  have hcounts := h.counts
  unfold Database.Counts at hcounts
  have hdb : s.shared.database = db := by rw [hs]; rfl
  split_ifs at hcounts with hd
  · refine ⟨4, ?_⟩
    simp [List.replicate_succ, State.steps, State.step, Counting.step, hl, Increment.step, hdb, hd,
      hcounts, ofData_toData]
  · refine ⟨2, ?_⟩
    simp [List.replicate_succ, State.steps, State.step, Counting.step, hl, Increment.step, hdb, hd,
      hcounts, nextIndex, indexRange]

/-- From there it sets the counter to the number that follows what it read. -/
theorem Increment.writes (p : ι) (h : db.Counter index c) {s : State ι (Shared ι) Counting}
    {count todo : ℕ}
    (hs : s.shared = .unlocked ι db) (hl : s.locals p = ⟨some (.setData count .lock), todo⟩) :
    ∃ k db',
    s.steps (Counting.step index) (List.replicate k p) =
      some ⟨.unlocked ι db', Function.update s.locals p ⟨none, todo⟩⟩ ∧
        db'.Counter index count := by
  obtain ⟨db', ⟨fuel, hret⟩, hc⟩ := Increment.sets p h count
  have hnext : ∀ x pc, Counting.step index p x ⟨some pc, todo⟩ =
    (Increment.step p index x pc).map fun r =>
      (r.1, r.2.elim (fun pc => (⟨some pc, todo⟩ : Counting)) fun _ => ⟨none, todo⟩) := by
    intro x pc
    unfold Counting.step
    dsimp only
    congr 1
    funext ⟨y, r⟩
    cases r <;> rfl
  obtain ⟨k, hk⟩ := steps_of_alone hnext (hret fuel le_rfl) hs hl
  exact ⟨k, db', hk, hc⟩

/-- A process alone counts as often as it will. -/
theorem Counting.alone (p : ι) : ∀ {m c : ℕ} {db : Database} {s : State ι (Shared ι) Counting},
    db.Counter index c →
    c < indexRange → s.shared = .unlocked ι db → s.locals p = ⟨none, m⟩ → ∃ k db',
    s.steps (Counting.step index) (List.replicate k p) =
      some ⟨.unlocked ι db', Function.update s.locals p ⟨none, 0⟩⟩ ∧
        db'.Counter index ((c + m) % indexRange)
  | 0, c, db, s, h, hc, hs, hl => by
    refine ⟨0, db, ?_, by rwa [Nat.add_zero, Nat.mod_eq_of_lt hc]⟩
    rw [← hs, ← hl, Function.update_eq_self]
    rfl
  | m + 1, c, db, s, h, _, hs, hl => by
    obtain ⟨k₁, h₁⟩ := Increment.reads p h hs hl
    obtain ⟨k₂, db', h₂, hc⟩ := Increment.writes (s := ⟨s.shared, Function.update s.locals p
      ⟨some (.setData (nextIndex c) .lock), m⟩⟩) p h hs (Function.update_self ..)
    obtain ⟨k₃, db'', h₃, hc'⟩ := Counting.alone p (m := m) (s := ⟨.unlocked ι db', Function.update
      (Function.update s.locals p ⟨some (.setData (nextIndex c) .lock), m⟩) p ⟨none, m⟩⟩) hc
        (nextIndex_lt c) rfl (Function.update_self ..)
    refine ⟨k₁ + k₂ + k₃, db'', ?_, by rwa [nextIndex_add_mod] at hc'⟩
    rw [← List.replicate_append_replicate, ← List.replicate_append_replicate, State.steps_append,
      State.steps_append, h₁,
      Option.bind_some, h₂, Option.bind_some, h₃]
    simp

/-- Processes that count one after the other all count. -/
theorem Counting.runs (ps : Finset ι) : ∀ {c : ℕ} {db : Database} {s : State ι (Shared ι) Counting},
    db.Counter index c →
    c < indexRange → s.shared = .unlocked ι db → (∀ p ∈ ps, (s.locals p).pc = none) → ∃ s' db',
    Runs (Counting.step index) (fun _ _ => True) s s' ∧ s'.shared = .unlocked ι db' ∧
      db'.Counter index ((c + ∑ p ∈ ps, (s.locals p).todo) % indexRange) ∧
        (∀ p ∈ ps, (s'.locals p).finished) ∧
      ∀ p, p ∉ ps → s'.locals p = s.locals p := by
  induction ps using Finset.induction_on with
  | empty =>
    intro c db s h hc hs _
    refine ⟨s, db, .refl s, hs, ?_, by simp, fun _ _ => rfl⟩
    rwa [Finset.sum_empty, Nat.add_zero, Nat.mod_eq_of_lt hc]
  | insert p ps hp ih =>
    intro c db s h hc hs hidle
    have hl : s.locals p = ⟨none, (s.locals p).todo⟩ := by
      rw [← hidle p (Finset.mem_insert_self p ps)]
    obtain ⟨k, db₁, h₁, hc₁⟩ := Counting.alone p h hc hs hl
    have hother : ∀ q ∈ ps, q ≠ p := fun q hq he => hp (he ▸ hq)
    obtain ⟨s', db', hruns, hs', hc', hfin, hrest⟩ :=
      ih (s := ⟨.unlocked ι db₁, Function.update s.locals p ⟨none, 0⟩⟩)
      hc₁ (Nat.mod_lt _ (Nat.two_pow_pos 64)) rfl fun q hq =>
        (congrArg Counting.pc (Function.update_of_ne (hother q hq) _ _)).trans
          (hidle q (Finset.mem_insert_of_mem hq))
    dsimp only at hc' hrest
    have hsum : ∑ q ∈ ps, (Function.update s.locals p ⟨none, 0⟩ q).todo = ∑ q ∈ ps,
      (s.locals q).todo :=
      Finset.sum_congr rfl fun q hq => by rw [Function.update_of_ne (hother q hq)]
    refine ⟨s', db', (Runs.of_steps h₁).trans hruns, hs', ?_, ?_, ?_⟩
    · rwa [Finset.sum_insert hp, ← Nat.add_assoc, ← hsum, ← Nat.mod_add_mod]
    · intro q hq
      rcases Finset.mem_insert.mp hq with rfl | hq
      · rw [hrest q hp, Function.update_self]
        exact ⟨rfl, rfl⟩
      · exact hfin q hq
    · intro q hq
      rw [Finset.mem_insert, not_or] at hq
      rw [hrest q hq.2, Function.update_of_ne hq.1]

/-! ### Updates lost and kept -/

section

variable [Fintype ι] {todo : ι → ℕ}

/-- Two processes count: one of them reads, the other counts, and then the
first writes. -/
theorem Counting.loses (todo : ι → ℕ) (h : db.Counter index c) (hc : c < indexRange) {p q : ι}
    (hpq : p ≠ q) (hp : 0 < todo p) (hq : 0 < todo q) : ∃ s,
    Runs (Counting.step index) (fun _ _ => True) (Counting.start db todo) s ∧
      (∀ r, (s.locals r).finished) ∧
      ∃ count, s.shared.database.Counts index count ∧ count < c + ∑ r, todo r := by
  obtain ⟨k, hk⟩ := Nat.exists_eq_add_of_le' hp
  obtain ⟨k₁, h₁⟩ := Increment.reads (s := Counting.start db todo) p h rfl (m := k)
    (show (⟨none, todo p⟩ : Counting) = _ by rw [hk])
  obtain ⟨k₂, db₂, h₂, hc₂⟩ := Counting.alone (m := todo q) (s := ⟨.unlocked ι db, Function.update
    (Counting.start db todo).locals p ⟨some (.setData (nextIndex c) .lock), k⟩⟩) q h hc rfl
    (Function.update_of_ne hpq.symm _ _)
  obtain ⟨k₃, db₃, h₃, hc₃⟩ :=
    Increment.writes (s := ⟨.unlocked ι db₂, Function.update (Function.update
    (Counting.start db todo).locals p ⟨some (.setData (nextIndex c) .lock), k⟩) q ⟨none, 0⟩⟩)
      p hc₂ rfl
    ((Function.update_of_ne hpq _ _).trans (Function.update_self ..))
  dsimp only at h₃
  set l := Function.update (Function.update (Function.update (Counting.start db todo).locals p
    ⟨some (.setData (nextIndex c) .lock), k⟩) q ⟨none, 0⟩) p ⟨none, k⟩ with hl
  have hlocals : ∀ r, l r = ⟨none, if r = p then k else if r = q then 0 else todo r⟩ := by
    intro r
    by_cases hrp : r = p
    · rw [hl, hrp, Function.update_self, if_pos rfl]
    · rw [hl, Function.update_of_ne hrp, if_neg hrp]
      by_cases hrq : r = q
      · rw [hrq, Function.update_self, if_pos rfl]
      · rw [Function.update_of_ne hrq, Function.update_of_ne hrp, if_neg hrq]
        rfl
  -- the others, and the first process with what it has still to do
  obtain ⟨s, db', hruns, hs, hc', hfin, -⟩ :=
    Counting.runs (s := ⟨.unlocked ι db₃, l⟩) Finset.univ hc₃
    (nextIndex_lt c) rfl fun r _ =>
    congrArg Counting.pc (hlocals r)
  have hdb : s.shared.database = db' := by rw [hs]; rfl
  have hsum : c + 1 + ∑ r, (l r).todo < c + ∑ r, todo r := by
    rw [Nat.add_assoc, Nat.add_lt_add_iff_left, Nat.add_comm]
    have hone : (∑ r : ι, if r = p then 1 else 0) = 1 := by
      rw [Finset.sum_ite_eq' Finset.univ p, if_pos (Finset.mem_univ p)]
    rw [← hone, ← Finset.sum_add_distrib]
    refine Finset.sum_lt_sum (fun r _ => ?_) ⟨q, Finset.mem_univ q, ?_⟩
    · rw [hlocals]
      by_cases hrp : r = p
      · rw [hrp, if_pos rfl, if_pos rfl, hk]
      · rw [if_neg hrp, if_neg hrp, Nat.add_zero]
        split_ifs
        · exact Nat.zero_le _
        · exact le_rfl
    · rw [hlocals]
      simpa [hpq.symm] using hq
  refine ⟨s, ((Runs.of_steps h₁).trans (Runs.of_steps h₂)).trans ((Runs.of_steps h₃).trans hruns),
    fun r => hfin r (Finset.mem_univ r), _, hdb ▸ hc'.counts, lt_of_le_of_lt ?_ hsum⟩
  exact (Nat.mod_le _ _).trans (Nat.add_le_add_right (Nat.mod_le _ _) _)

/-- Only one process counts: nothing is lost, but for the range of an index. -/
theorem Counting.keeps (h : db.Counter index c) (hc : c < indexRange)
    (hone : ∀ p q, 0 < todo p → 0 < todo q → p = q)
    {s : State ι (Shared ι) Counting}
    (hs : Runs (Counting.step index) (fun _ _ => True) (Counting.start db todo) s)
    (hfin : ∀ r, (s.locals r).finished) :
    s.shared.database.Counts index ((c + ∑ r, todo r) % indexRange) := by
  have hstuck : ∀ {s : State ι (Shared ι) Counting} {r}, (s.locals r).finished →
    s.step (Counting.step index) r = none := by
    intro s r h
    rw [State.step, Counting.step, h.1, h.2]
    rfl
  by_cases hp : ∃ p, 0 < todo p
  · obtain ⟨p, hp⟩ := hp
    have hzero : ∀ q, q ≠ p → todo q = 0 := fun q hqp => by
      by_contra hq
      exact hqp (hone q p (Nat.pos_of_ne_zero hq) hp)
    obtain ⟨n, hn, -⟩ := hs.replicate (p := p) fun q x hqp => by
      show Counting.step index q x ⟨none, todo q⟩ = none
      rw [hzero q hqp]
      rfl
    obtain ⟨k, db', hk, hc⟩ := Counting.alone (s := Counting.start db todo) p h hc rfl rfl
    have heq := steps_replicate_unique hn (hstuck (hfin p)) hk
      (hstuck (by simp [Counting.finished]))
    rw [heq, Finset.sum_eq_single p (fun q _ hqp => hzero q hqp) fun hnot =>
      absurd (Finset.mem_univ p) hnot]
    exact hc.counts
  · simp only [not_exists, Nat.not_lt, Nat.le_zero] at hp
    have heq := hs.of_stuck fun r => hstuck (s := Counting.start db todo) (r := r) ⟨rfl, hp r⟩
    rw [heq, Finset.sum_eq_zero fun r _ => hp r, Nat.add_zero, Nat.mod_eq_of_lt hc]
    exact h.counts

/-- Whatever the processes count, there is a run that ends. -/
theorem Counting.ends (todo : ι → ℕ) (h : db.Counter index c) (hc : c < indexRange) : ∃ s,
    Runs (Counting.step index) (fun _ _ => True) (Counting.start db todo) s ∧
      (∀ r, (s.locals r).finished) ∧
      s.shared.database.Counts index ((c + ∑ r, todo r) % indexRange) := by
  obtain ⟨s, db', hruns, hs, hc', hfin, -⟩ :=
    Counting.runs (s := Counting.start db todo) Finset.univ h hc rfl fun _ _ => rfl
  refine ⟨s, hruns, fun r => hfin r (Finset.mem_univ r), ?_⟩
  rw [hs]
  exact hc'.counts

/-- **Counters lose updates exactly when two processes count or the counter
overflows.** After any run of operations, at any path that holds a counter, let
any number of processes count so often each. In every run that ends the counter
stands at what it was and all that was counted, if and only if not more than one
of them counts at all and this is the number of an index. -/
theorem increments_exact (ops : List Op) (path : List Key) (todo : ι → ℕ) :
    ∃ (answers : List Answer) (db : Database), runAll .create ops = some (answers, db) ∧
      let (node, db) := Path.getAll db .root path
      ∀ c, db.Counts node.index c → c < indexRange →
        ((∀ s, Runs (Counting.step node.index) (fun _ _ => True) (Counting.start db todo) s →
          (∀ p, (s.locals p).finished) → s.shared.database.Counts node.index (c + ∑ p, todo p)) ↔
        (∀ p q, 0 < todo p → 0 < todo q → p = q) ∧ c + ∑ p, todo p < indexRange) := by
  obtain ⟨db, he, Γ, L, h, -⟩ := stores_create.runAll ops
  obtain ⟨r, hr, h0⟩ := h.root
  obtain ⟨Γ', L', n, hn, h', hw, -⟩ := h.getAll path (p := .root) hr h0.symm
  refine ⟨_, db, he, fun c hc hlt => ?_⟩
  rw [← hn] at hc ⊢
  have hcounter := h'.counter hw hc
  constructor
  · refine fun hall => ⟨fun p q hp hq => ?_, ?_⟩
    · by_contra hpq
      obtain ⟨s, hs, hfin, count, hcount, hless⟩ := Counting.loses todo hcounter hlt hpq hp hq
      exact hless.ne (hcount.unique (hall s hs hfin))
    · obtain ⟨s, hs, hfin, hcount⟩ := Counting.ends todo hcounter hlt
      rw [← hcount.unique (hall s hs hfin)]
      exact Nat.mod_lt _ (Nat.two_pow_pos 64)
  · rintro ⟨hone, hfits⟩ s hs hfin
    have hkeeps := Counting.keeps hcounter hlt hone hs hfin
    rwa [Nat.mod_eq_of_lt hfits] at hkeeps

end

end

/-- Two processes count once each at the root of a new file, and one count is
lost. -/
theorem increments_lost : ¬ ∀ (todo : Bool → ℕ) (s : State Bool (Shared Bool) Counting),
    Runs (Counting.step 0) (fun _ _ => True) (Counting.start .create todo) s →
      (∀ p, (s.locals p).finished) →
      s.shared.database.Counts 0 (0 + ∑ p, todo p) := by
  intro h
  have hcounter : Database.create.Counter 0 0 :=
    ⟨_, _, [], _, Rep.create, Layout.put_same .., rfl, Or.inl ⟨rfl, rfl⟩⟩
  obtain ⟨s, hs, hfin, count, hcount, hlt⟩ :=
    Counting.loses (fun _ : Bool => 1) hcounter (Nat.two_pow_pos 64) Bool.false_ne_true
      one_pos one_pos
  exact hlt.ne (hcount.unique (h _ s hs hfin))

end BeeFish
