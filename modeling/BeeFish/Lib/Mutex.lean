/-
# Recursive mutexes

A mutex that its owner may lock again: it is free, or held by one owner, who
has locked it so often. Locking is none where another one holds it, unlocking
where the caller does not. The depth of a process goes up by one when it locks
the mutex and down by one when it unlocks it, and that of the others stays as
it is (`lock_depth`, `unlock_depth`); only one process has a positive depth
(`eq_of_depth_pos`).

Key definitions: `Mutex`, `Mutex.depth`.
-/
import Mathlib.Tactic.Common

/-- A recursive mutex; a holder has locked it `again` times after the first. -/
inductive Mutex (ι : Type) where
  | free
  | held (owner : ι) (again : ℕ)
  deriving DecidableEq, Repr

namespace Mutex

variable {ι : Type} [DecidableEq ι]

def lock (p : ι) : Mutex ι → Option (Mutex ι)
  | free => some (held p 0)
  | held q n => if q = p then some (held q (n + 1)) else none

def unlock (p : ι) : Mutex ι → Option (Mutex ι)
  | free => none
  | held q n => if q = p then some (match n with | 0 => free | n + 1 => held q n) else none

/-- How often the process has locked the mutex. -/
def depth (p : ι) : Mutex ι → ℕ
  | free => 0
  | held q n => if q = p then n + 1 else 0

variable {p q : ι} {m m' : Mutex ι}

@[simp] theorem lock_free : (free : Mutex ι).lock p = some (held p 0) := rfl

@[simp] theorem lock_held (n : ℕ) : (held p n).lock p = some (held p (n + 1)) := if_pos rfl

@[simp] theorem unlock_held_zero : (held p 0).unlock p = some free := if_pos rfl

@[simp] theorem unlock_held_succ (n : ℕ) : (held p (n + 1)).unlock p = some (held p n) := if_pos rfl

theorem eq_of_depth_pos (hp : 0 < m.depth p) (hq : 0 < m.depth q) : p = q := by
  cases m with
  | free => exact absurd hp (by simp [depth])
  | held o n =>
    simp only [depth] at hp hq
    split_ifs at hp hq <;> simp_all

theorem lock_depth (h : m.lock p = some m') (q : ι) : m'.depth q = if q = p then m.depth p + 1
    else m.depth q := by
  cases m with
  | free =>
    obtain rfl := Option.some.inj h
    by_cases hq : q = p
    · simp [depth, hq]
    · simp [depth, hq, Ne.symm hq]
  | held o n =>
    simp only [lock] at h
    split_ifs at h with ho
    obtain rfl := Option.some.inj h
    by_cases hq : q = p
    · simp [depth, ho, hq]
    · simp [depth, ho, hq, Ne.symm hq]

theorem unlock_depth (h : m.unlock p = some m') (q : ι) : m'.depth q = if q = p then m.depth p - 1
    else m.depth q := by
  cases m with
  | free => cases h
  | held o n =>
    simp only [unlock] at h
    split_ifs at h with ho
    obtain rfl := Option.some.inj h
    by_cases hq : q = p
    · cases n <;> simp [depth, ho, hq]
    · cases n <;> simp [depth, ho, hq, Ne.symm hq]

/-- A free mutex can be locked, and one that is held by its holder. -/
theorem exists_lock (h : m = free ∨ 0 < m.depth p) : ∃ m', m.lock p = some m' := by
  rcases h with rfl | h
  · exact ⟨_, rfl⟩
  · cases m with
    | free => exact ⟨_, rfl⟩
    | held o n =>
      simp only [depth] at h
      split_ifs at h with ho
      · exact ⟨_, if_pos ho⟩
      · omega

theorem exists_unlock (h : 0 < m.depth p) : ∃ m', m.unlock p = some m' := by
  cases m with
  | free => exact absurd h (by simp [depth])
  | held o n =>
    simp only [depth] at h
    split_ifs at h with ho
    · exact ⟨_, if_pos ho⟩
    · omega

/-- A mutex that is not free is held by someone. -/
theorem exists_depth_pos (h : m ≠ free) : ∃ p, 0 < m.depth p := by
  cases m with
  | free => exact absurd rfl h
  | held o n => exact ⟨o, by simp [depth]⟩

end Mutex
