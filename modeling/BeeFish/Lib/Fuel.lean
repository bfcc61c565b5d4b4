/-
# Functions with fuel

A loop without a bound of its own takes fuel and is none where it runs out.
`Returns f r` says that it gives `r` for all fuel from some amount on, so it
gives one result only (`Returns.unique`); `Settles` allows that it fails. A loop
that takes one step and goes on returns what it returns from there
(`Returns.step`).

Key definitions: `Returns`, `Settles`.
-/
import Mathlib.Data.Nat.Basic
import Mathlib.Tactic.Common

/-- With enough fuel `f` gives `r`. -/
def Returns {ρ : Type} (f : ℕ → Option ρ) (r : ρ) : Prop := ∃ n, ∀ fuel, n ≤ fuel → f fuel = some r

namespace Returns

variable {ρ α : Type} {f g : ℕ → Option ρ} {r : ρ}

theorem unique {r' : ρ} (h : Returns f r) (h' : Returns f r') : r = r' := by
  obtain ⟨n, hn⟩ := h
  obtain ⟨m, hm⟩ := h'
  have h1 := hn (max n m) (le_max_left _ _)
  rw [hm (max n m) (le_max_right _ _)] at h1
  exact (Option.some.inj h1).symm

theorem of_succ (h : ∀ fuel, f (fuel + 1) = some r) : Returns f r :=
  ⟨1, fun fuel hf => by
    obtain ⟨k, rfl⟩ := Nat.exists_eq_add_of_le' hf
    exact h k⟩

/-- Some steps, and then what `g` does. -/
theorem steps (n : ℕ) (hg : Returns g r) (h : ∀ fuel, f (fuel + n) = g fuel) : Returns f r := by
  obtain ⟨m, hm⟩ := hg
  refine ⟨m + n, fun fuel hf => ?_⟩
  obtain ⟨k, rfl⟩ := Nat.exists_eq_add_of_le' (show n ≤ fuel by omega)
  rw [h k]
  exact hm k (by omega)

/-- One step, and then what `g` does. -/
theorem step (hg : Returns g r) (h : ∀ fuel, f (fuel + 1) = g fuel) : Returns f r := hg.steps 1 h

theorem bind_some {a : ℕ → Option α} {x : α} {g : α → Option ρ} (ha : Returns a x)
    (hg : g x = some r) :
    Returns (fun fuel => (a fuel).bind g) r := by
  obtain ⟨n, hn⟩ := ha
  exact ⟨n, fun fuel hf => by simp only [hn fuel hf, Option.bind_some, hg]⟩

theorem map {a : ℕ → Option α} {x : α} (ha : Returns a x) (g : α → ρ) :
    Returns (fun fuel => (a fuel).map g) (g x) := by
  obtain ⟨n, hn⟩ := ha
  exact ⟨n, fun fuel hf => by simp only [hn fuel hf, Option.map_some]⟩

/-- One step that runs `a` and then `g` on its result. -/
theorem bind {a : ℕ → Option α} {x : α} {g : α → ℕ → Option ρ} (ha : Returns a x)
    (hg : Returns (g x) r)
    (h : ∀ fuel, f (fuel + 1) = (a fuel).bind fun y => g y fuel) : Returns f r := by
  obtain ⟨n, hn⟩ := ha
  obtain ⟨m, hm⟩ := hg
  refine ⟨max n m + 1, fun fuel hf => ?_⟩
  obtain ⟨k, rfl⟩ := Nat.exists_eq_add_of_le' (Nat.le_of_add_left_le hf)
  have h1 : n ≤ k := by omega
  have h2 : m ≤ k := by omega
  rw [h k, hn k h1, Option.bind_some, hm k h2]

end Returns

/-- With enough fuel `f` gives `o`, a result or none. -/
def Settles {ρ : Type} (f : ℕ → Option ρ) (o : Option ρ) : Prop :=
  ∃ n, ∀ fuel, n ≤ fuel → f fuel = o

namespace Settles

variable {ρ α : Type} {f g : ℕ → Option ρ} {o : Option ρ}

theorem returns_iff {r : ρ} (h : Settles f o) : Returns f r ↔ o = some r := by
  obtain ⟨n, hn⟩ := h
  constructor
  · rintro ⟨m, hm⟩
    rw [← hn (max n m) (le_max_left _ _), hm (max n m) (le_max_right _ _)]
  · rintro rfl
    exact ⟨n, hn⟩

theorem const (o : Option ρ) : Settles (fun _ => o) o := ⟨0, fun _ _ => rfl⟩

/-- One step, and then what `g` does. -/
theorem step (hg : Settles g o) (h : ∀ fuel, f (fuel + 1) = g fuel) : Settles f o := by
  obtain ⟨n, hn⟩ := hg
  refine ⟨n + 1, fun fuel hf => ?_⟩
  obtain ⟨k, rfl⟩ := Nat.exists_eq_add_of_le' (Nat.le_of_add_left_le hf)
  rw [h k]
  exact hn k (by omega)

/-- `a`, and then `g` on its result if there is one. -/
theorem bind {a : ℕ → Option α} {x : Option α} {g : α → ℕ → Option ρ} {r : α → Option ρ}
    (ha : Settles a x)
    (hg : ∀ y ∈ x, Settles (g y) (r y)) : Settles (fun fuel => (a fuel).bind fun y => g y fuel)
      (x.bind r) := by
  obtain ⟨n, hn⟩ := ha
  cases x with
  | none => exact ⟨n, fun fuel hf => by simp only [hn fuel hf, Option.bind_none]⟩
  | some y =>
    obtain ⟨m, hm⟩ := hg y rfl
    refine ⟨max n m, fun fuel hf => ?_⟩
    have h1 : n ≤ fuel := le_trans (le_max_left _ _) hf
    have h2 : m ≤ fuel := le_trans (le_max_right _ _) hf
    simp only [hn fuel h1, Option.bind_some, hm fuel h2]

theorem map {a : ℕ → Option α} {x : Option α} (ha : Settles a x) (g : α → ρ) :
    Settles (fun fuel => (a fuel).map g) (x.map g) := by
  obtain ⟨n, hn⟩ := ha
  exact ⟨n, fun fuel hf => by simp only [hn fuel hf]⟩

end Settles

theorem Returns.settles {ρ : Type} {f : ℕ → Option ρ} {r : ρ} (h : Returns f r) :
    Settles f (some r) :=
  h
