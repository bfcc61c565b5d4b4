/-
# Records in a flat growing store

A store is a row of cells that grows at its end. Writing replaces the cells
of an interval, reading returns them, and a read of another interval is
unchanged. Records of a type `ρ` are laid out by `enc : ρ → List α`;
`Holds enc f Γ` says that the store holds the record `Γ p` at each position
`p`, inside the store and apart from every other record. It is kept by a
record appended at the end (`Holds.append`) and by one replaced by another of
the same length (`Holds.overwrite`), whatever else the store holds.

Key definitions: `Flat`, `Flat.write`, `Flat.read`, `Flat.Holds`.
-/
import Mathlib.Logic.Function.Basic
import Mathlib.Data.List.Range
import Mathlib.Tactic.Common

/-- A row of `size` cells; what stands behind them is never looked at. -/
@[ext] structure Flat (α : Type) where
  size : ℕ
  cell : ℕ → α

namespace Flat

variable {α ρ : Type}

/-- Write `xs` at `p`, growing the store if they reach past its end. -/
def write (f : Flat α) (p : ℕ) (xs : List α) : Flat α where
  size := max f.size (p + xs.length)
  cell i := if p ≤ i then (xs[i - p]?).getD (f.cell i) else f.cell i

/-- The `n` cells from `p` on. -/
def read (f : Flat α) (p n : ℕ) : List α := (List.range n).map fun i => f.cell (p + i)

@[simp] theorem length_read (f : Flat α) (p n : ℕ) : (f.read p n).length = n := by simp [read]

@[simp] theorem size_write (f : Flat α) (p : ℕ) (xs : List α) :
    (f.write p xs).size = max f.size (p + xs.length) := rfl

theorem cell_write (f : Flat α) (p i : ℕ) (xs : List α) :
    (f.write p xs).cell i = if p ≤ i then (xs[i - p]?).getD (f.cell i) else f.cell i := rfl

theorem read_write (f : Flat α) (p : ℕ) (xs : List α) : (f.write p xs).read p xs.length = xs := by
  apply List.ext_getElem
  · simp
  · intro i hi hx
    simp [read, write, List.getElem?_eq_getElem hx]

/-- A read of cells outside the written ones is unchanged. -/
theorem read_write_of_apart (f : Flat α) {p q n : ℕ} (xs : List α)
    (h : q + n ≤ p ∨ p + xs.length ≤ q) :
    (f.write p xs).read q n = f.read q n := by
  apply List.map_congr_left
  intro i hi
  have hi : i < n := List.mem_range.mp hi
  unfold write
  rcases h with h | h
  · have : ¬ p ≤ q + i := by omega
    simp [this]
  · have h1 : xs[q + i - p]? = none := List.getElem?_eq_none (by omega)
    simp [h1]

theorem read_add (f : Flat α) (p m n : ℕ) : f.read p (m + n) = f.read p m ++ f.read (p + m) n := by
  simp [read, List.range_add, Nat.add_assoc]

/-- Two writes in a row are one. -/
theorem write_write (f : Flat α) (p : ℕ) (xs ys : List α) :
    (f.write p xs).write (p + xs.length) ys = f.write p (xs ++ ys) := by
  have hsize : ((f.write p xs).write (p + xs.length) ys).size = (f.write p (xs ++ ys)).size := by
    simp only [size_write, List.length_append]
    omega
  have hcell : ((f.write p xs).write (p + xs.length) ys).cell = (f.write p (xs ++ ys)).cell := by
    funext i
    simp only [cell_write]
    by_cases hp : p ≤ i
    · by_cases hx : p + xs.length ≤ i
      · have h1 : xs.length ≤ i - p := by omega
        have h2 : xs[i - p]? = none := List.getElem?_eq_none h1
        rw [if_pos hx, if_pos hp, if_pos hp, h2, List.getElem?_append_right h1,
          show i - (p + xs.length) = i - p - xs.length by omega]
        rfl
      · have h1 : i - p < xs.length := by omega
        rw [if_neg hx, if_pos hp, if_pos hp, List.getElem?_append_left h1]
    · have hx : ¬ p + xs.length ≤ i := by omega
      rw [if_neg hx, if_neg hp, if_neg hp]
  exact Flat.ext hsize hcell

/-! ### Records -/

/-- The store holds the record `Γ p` at `p`: its cells are there, inside the
store, and apart from the cells of every other record. -/
structure Holds (enc : ρ → List α) (f : Flat α) (Γ : ℕ → Option ρ) : Prop where
  reads : ∀ {p r}, Γ p = some r → f.read p (enc r).length = enc r
  within : ∀ {p r}, Γ p = some r → p + (enc r).length ≤ f.size
  apart : ∀ {p q r s}, Γ p = some r → Γ q = some s → p ≠ q →
    p + (enc r).length ≤ q ∨ q + (enc s).length ≤ p

variable {enc : ρ → List α} {f : Flat α} {Γ : ℕ → Option ρ}

/-- A store that holds no record. -/
theorem holds_none (enc : ρ → List α) (f : Flat α) : Holds enc f (fun _ => none) where
  reads hp := by simp at hp
  within hp := by simp at hp
  apart hp := by simp at hp

/-- A record appended at the end disturbs no other. -/
theorem Holds.append (h : Holds enc f Γ) (r : ρ) :
    Holds enc (f.write f.size (enc r)) (Function.update Γ f.size (some r)) where
  reads {p s} hp := by
    by_cases he : p = f.size
    · subst he
      obtain rfl : r = s := by simpa using hp
      exact read_write f _ _
    · rw [Function.update_of_ne he] at hp
      rw [read_write_of_apart f _ (Or.inl (h.within hp))]
      exact h.reads hp
  within {p s} hp := by
    rw [size_write]
    by_cases he : p = f.size
    · subst he
      obtain rfl : r = s := by simpa using hp
      exact le_max_right _ _
    · rw [Function.update_of_ne he] at hp
      exact le_trans (h.within hp) (le_max_left _ _)
  apart {p q s t} hp hq hne := by
    by_cases hep : p = f.size <;> by_cases heq : q = f.size
    · exact absurd (hep.trans heq.symm) hne
    · rw [Function.update_of_ne heq] at hq
      exact Or.inr (hep ▸ h.within hq)
    · rw [Function.update_of_ne hep] at hp
      exact Or.inl (heq ▸ h.within hp)
    · rw [Function.update_of_ne hep] at hp
      rw [Function.update_of_ne heq] at hq
      exact h.apart hp hq hne

/-- A record replaced by one of the same length disturbs no other. -/
theorem Holds.overwrite (h : Holds enc f Γ) {p : ℕ} {r : ρ} (hp : Γ p = some r) (r' : ρ)
    (hl : (enc r').length = (enc r).length) :
    Holds enc (f.write p (enc r')) (Function.update Γ p (some r')) where
  reads {q s} hq := by
    by_cases he : q = p
    · subst he
      obtain rfl : r' = s := by simpa using hq
      exact read_write f _ _
    · rw [Function.update_of_ne he] at hq
      rw [read_write_of_apart f _ (hl ▸ h.apart hq hp he)]
      exact h.reads hq
  within {q s} hq := by
    rw [size_write]
    by_cases he : q = p
    · subst he
      obtain rfl : r' = s := by simpa using hq
      exact le_max_right _ _
    · rw [Function.update_of_ne he] at hq
      exact le_trans (h.within hq) (le_max_left _ _)
  apart {q q' s t} hq hq' hne := by
    by_cases he : q = p <;> by_cases he' : q' = p
    · exact absurd (he.trans he'.symm) hne
    · subst he
      obtain rfl : r' = s := by simpa using hq
      rw [Function.update_of_ne he'] at hq'
      rw [hl]
      exact h.apart hp hq' hne
    · subst he'
      obtain rfl : r' = t := by simpa using hq'
      rw [Function.update_of_ne he] at hq
      rw [hl]
      exact h.apart hq hp hne
    · rw [Function.update_of_ne he] at hq
      rw [Function.update_of_ne he'] at hq'
      exact h.apart hq hq' hne

/-- A record replaced by one of the same length leaves the store's size. -/
theorem Holds.size_overwrite (h : Holds enc f Γ) {p : ℕ} {r : ρ} (hp : Γ p = some r) (r' : ρ)
    (hl : (enc r').length = (enc r).length) : (f.write p (enc r')).size = f.size := by
  have := h.within hp
  rw [size_write, hl]
  omega

end Flat
