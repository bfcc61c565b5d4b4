/-
# Timestamps

A `Timestamp` (Id/Id.hpp) is a reading of the clock and an increment, which
starts again at zero where the clock has risen since the Timestamp before and
goes up by one where it has not. The shared memory keeps the last reading and
the last increment, under a lock. So the increment says how many readings ago
the clock has risen (`lastIncrement_since`), and two Timestamps are equal when
the clock shows a millisecond twice, equally many readings after a rise
(`timestamps_ne`). A clock that does not come back to a millisecond gives no
Timestamp twice (`timestamp_ne_of_leaves`).

Key definitions: `Timestamp.Memory.increment`, `timestamp`, `Since`.
-/
import BeeFish.Encoding

namespace BeeFish

/-- `Timestamp::Memory` -/
structure Timestamp.Memory where
  lastMilliseconds : UInt64
  lastIncrement : UInt64

namespace Timestamp

/-- The memory is constructed at a reading of the clock. -/
def Memory.new (milliseconds : UInt64) : Memory := ⟨milliseconds, 0⟩

/-- `Timestamp::increment` -/
def Memory.increment (memory : Memory) (milliseconds : UInt64) : UInt64 × Memory :=
  let lastIncrement := if memory.lastMilliseconds < milliseconds then 0
    else memory.lastIncrement + 1
  (lastIncrement, ⟨milliseconds, lastIncrement⟩)

/-- `Timestamp::Timestamp`, at a reading of the clock. -/
def new (memory : Memory) (milliseconds : UInt64) : Timestamp × Memory :=
  let (increment, memory) := memory.increment milliseconds
  (⟨milliseconds.toNat, increment.toNat⟩, memory)

end Timestamp

open Timestamp

section

variable (clock : ℕ → UInt64)

/-- The memory after some Timestamps; the first reading constructs it. -/
def memory : ℕ → Memory
  | 0 => .new (clock 0)
  | n + 1 => (Timestamp.new (memory n) (clock (n + 1))).2

/-- The Timestamp that is created after `n` others. -/
def timestamp (n : ℕ) : Timestamp := (Timestamp.new (memory clock n) (clock (n + 1))).1

/-- The reading is the first one or above the one before. -/
def Rises : ℕ → Prop
  | 0 => True
  | n + 1 => clock n < clock (n + 1)

/-- The clock has last risen `d` readings before reading `n`. -/
def Since (d n : ℕ) : Prop := ∃ i, n = i + d ∧ Rises clock i ∧ ∀ k, i < k → k ≤ n → ¬ Rises clock k

end

variable {clock : ℕ → UInt64} {n : ℕ}

theorem lastMilliseconds_memory : ∀ n : ℕ, (memory clock n).lastMilliseconds = clock n
  | 0 => rfl
  | _ + 1 => rfl

theorem lastIncrement_rises (h : Rises clock n) : (memory clock n).lastIncrement = 0 := by
  cases n with
  | zero => rfl
  | succ n =>
    show (if (memory clock n).lastMilliseconds < clock (n + 1) then 0
      else (memory clock n).lastIncrement + 1) = _
    rw [lastMilliseconds_memory]
    exact if_pos h

theorem lastIncrement_falls (h : ¬ Rises clock (n + 1)) :
    (memory clock (n + 1)).lastIncrement = (memory clock n).lastIncrement + 1 := by
  show (if (memory clock n).lastMilliseconds < clock (n + 1) then 0
    else (memory clock n).lastIncrement + 1) = _
  rw [lastMilliseconds_memory]
  exact if_neg h

/-- The increment is how many readings ago the clock has risen. -/
theorem lastIncrement_since : ∀ {d n : ℕ},
    Since clock d n → (memory clock n).lastIncrement = UInt64.ofNat d
  | 0, _, ⟨_, rfl, hrise, _⟩ => lastIncrement_rises hrise
  | d + 1, _, ⟨i, rfl, hrise, hnone⟩ => by
    have ih : (memory clock (i + d)).lastIncrement = UInt64.ofNat d :=
      lastIncrement_since ⟨i, rfl, hrise, fun k hk hle => hnone k hk (Nat.le_succ_of_le hle)⟩
    calc (memory clock (i + d + 1)).lastIncrement
        = (memory clock (i + d)).lastIncrement + 1 :=
          lastIncrement_falls (hnone _ (by omega) (Nat.le_refl _))
      _ = UInt64.ofNat (d + 1) := by rw [ih, UInt64.ofNat_add]; rfl

theorem exists_since : ∀ n : ℕ, ∃ d, Since clock d n
  | 0 => ⟨0, 0, rfl, trivial, fun k hk hle => by omega⟩
  | n + 1 => by
    by_cases h : Rises clock (n + 1)
    · exact ⟨0, n + 1, rfl, h, fun k hk hle => by omega⟩
    · obtain ⟨d, i, rfl, hrise, hnone⟩ := exists_since n
      refine ⟨d + 1, i, rfl, hrise, fun k hk hle => ?_⟩
      rcases Nat.lt_or_eq_of_le hle with hlt | rfl
      · exact hnone k hk (Nat.le_of_lt_succ hlt)
      · exact h

/-- The increment and the reading of a Timestamp. -/
theorem timestamp_since {d : ℕ} (h : Since clock d (n + 1)) :
    timestamp clock n = ⟨(clock (n + 1)).toNat, d % 2 ^ 64⟩ := by
  have hincrement : (timestamp clock n).increment = (memory clock (n + 1)).lastIncrement.toNat :=
    rfl
  rw [lastIncrement_since h, UInt64.toNat_ofNat'] at hincrement
  rw [← hincrement]
  rfl

/-- **Timestamps.** The Timestamps of the first readings differ exactly when no
two of them show the same millisecond equally many readings after the clock has
risen. -/
theorem timestamps_ne (clock : ℕ → UInt64) (n : ℕ) :
    (∀ i j, i < j → j < n → timestamp clock i ≠ timestamp clock j) ↔
      ∀ i j, i < j → j < n → clock (i + 1) = clock (j + 1) → ∀ d d', Since clock d (i + 1) →
        Since clock d' (j + 1) →
        d % 2 ^ 64 ≠ d' % 2 ^ 64 := by
  constructor
  · intro h i j hij hj hclock d d' hd hd' heq
    refine h i j hij hj ?_
    rw [timestamp_since hd, timestamp_since hd', hclock, heq]
  · intro h i j hij hj heq
    obtain ⟨d, hd⟩ : ∃ d, Since clock d (i + 1) := exists_since (i + 1)
    obtain ⟨d', hd'⟩ : ∃ d, Since clock d (j + 1) := exists_since (j + 1)
    rw [timestamp_since hd, timestamp_since hd', Timestamp.mk.injEq] at heq
    exact h i j hij hj (UInt64.toNat_inj.mp heq.1) d d' hd hd' heq.2

/-- The clock steps back by a millisecond and rises again. -/
theorem timestamps_fall : ¬ ∀ (clock : ℕ → UInt64) (n i j : ℕ), i < j → j < n →
    timestamp clock i ≠ timestamp clock j := by
  intro h
  exact h (fun n => if n = 0 then 1 else if n = 2 then 4 else 5) 3 0 2 (by decide) (by decide)
    (by decide)

theorem Since.unique {d d' : ℕ} (h : Since clock d n) (h' : Since clock d' n) : d = d' := by
  obtain ⟨i, rfl, hrise, hnone⟩ := h
  obtain ⟨j, hj, hrise', hnone'⟩ := h'
  rcases Nat.lt_trichotomy i j with hlt | rfl | hlt
  · exact absurd hrise' (hnone j hlt (by omega))
  · omega
  · exact absurd hrise (hnone' i hlt (by omega))

/-- Where the clock shows the same millisecond for some more readings, it has
not risen. -/
theorem Since.add {d : ℕ} (h : Since clock d n) : ∀ {m : ℕ}, (∀ k ≤ m, clock (n + k) = clock n) →
    Since clock (d + m) (n + m)
  | 0, _ => h
  | m + 1, hclock => by
    obtain ⟨i, hn, hrise, hnone⟩ := h.add fun k hk => hclock k (Nat.le_succ_of_le hk)
    refine ⟨i, by omega, hrise, fun k hk hle => ?_⟩
    rcases Nat.lt_or_eq_of_le hle with hlt | rfl
    · exact hnone k hk (Nat.le_of_lt_succ hlt)
    · show ¬ clock (n + m) < clock (n + (m + 1))
      rw [hclock m (Nat.le_succ m), hclock (m + 1) (Nat.le_refl _)]
      exact UInt64.lt_irrefl _

/-- **A clock that does not come back.** Where a millisecond is not shown again
after another one, as with a clock that never falls, no two Timestamps are
equal. -/
theorem timestamp_ne_of_leaves (hleaves : ∀ i j k, i ≤ j → j ≤ k → clock i = clock k →
    clock j = clock i) {i j : ℕ} (hij : i < j)
    (hj : j < 2 ^ 64) : timestamp clock i ≠ timestamp clock j := by
  intro heq
  obtain ⟨d, hd⟩ : ∃ d, Since clock d (i + 1) := exists_since (i + 1)
  obtain ⟨m, rfl⟩ : ∃ m, j = i + m := ⟨j - i, by omega⟩
  have hclock : clock (i + 1) = clock (i + m + 1) := by
    obtain ⟨d', hd'⟩ : ∃ d, Since clock d (i + m + 1) := exists_since (i + m + 1)
    rw [timestamp_since hd, timestamp_since hd', Timestamp.mk.injEq] at heq
    exact UInt64.toNat_inj.mp heq.1
  have hd' : Since clock (d + m) (i + m + 1) := by
    have hadd := hd.add fun k (hk : k ≤ m) => hleaves (i + 1) (i + 1 + k) (i + m + 1) (by omega)
      (by omega) hclock
    rwa [Nat.add_right_comm] at hadd
  rw [timestamp_since hd, timestamp_since hd', Timestamp.mk.injEq] at heq
  omega

end BeeFish
