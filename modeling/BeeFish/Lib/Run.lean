/-
# Runs that may fail

What a function with fuel comes to that can also fail: a result, a failure, or
nothing where the fuel runs out. A run that has gone on for one part goes on
with the next one (`Run.bind`).

Key definitions: `Run`.
-/
import BeeFish.Lib.Fuel

/-- None without enough fuel. -/
def Run (φ α : Type) : Type := Option (Except φ α)

namespace Run

variable {φ α β : Type}

def ok (a : α) : Run φ α := some (.ok a)

def fail (f : φ) : Run φ α := some (.error f)

def outOfFuel : Run φ α := none

instance : Monad (Run φ) where
  pure := ok
  bind x g :=
    match x with
    | none => none
    | some (.error f) => some (.error f)
    | some (.ok a) => g a

/-- A run without fuel. -/
def ofExcept : Except φ α → Run φ α := some

@[simp] theorem pure_eq (a : α) : (pure a : Run φ α) = ok a := rfl

@[simp] theorem ok_bind (a : α) (g : α → Run φ β) : (ok a >>= g) = g a := rfl

@[simp] theorem fail_bind (f : φ) (g : α → Run φ β) : (fail f >>= g) = fail f := rfl

theorem cases (x : Run φ α) : x = outOfFuel ∨ (∃ f, x = fail f) ∨ ∃ a, x = ok a := by
  rcases x with _ | f | a
  · exact Or.inl rfl
  · exact Or.inr (Or.inl ⟨f, rfl⟩)
  · exact Or.inr (Or.inr ⟨a, rfl⟩)

theorem outOfFuel_ne_ok {a : α} : (outOfFuel : Run φ α) ≠ ok a := nofun

theorem bind_ok (x : Run φ α) : (x >>= ok) = x := by
  rcases x with _ | _ | _ <;> rfl

/-- A run that comes to a result has come to one after its first part. -/
theorem bind_eq_ok {x : Run φ α} {g : α → Run φ β} {b : β} : (x >>= g) = ok b ↔ ∃ a, x = ok a ∧
    g a = ok b := by
  rcases x with _ | _ | a
  · exact ⟨nofun, nofun⟩
  · exact ⟨nofun, nofun⟩
  · exact ⟨fun h => ⟨a, rfl, h⟩, fun ⟨_, ha, hg⟩ => by cases ha; exact hg⟩

theorem ok_inj {a b : α} : (ok a : Run φ α) = ok b ↔ a = b :=
  ⟨fun h => by cases h; rfl, fun h => h ▸ rfl⟩

@[simp] theorem ofExcept_ok (a : α) : ofExcept (.ok a : Except φ α) = ok a := rfl

@[simp] theorem ofExcept_error (f : φ) : (ofExcept (.error f) : Run φ α) = fail f := rfl

/-! ### More fuel -/

/-- The second run has more fuel. -/
def Le (x y : Run φ α) : Prop := x = outOfFuel ∨ x = y

theorem Le.refl (x : Run φ α) : x.Le x := Or.inr rfl

theorem outOfFuel_le (x : Run φ α) : (outOfFuel : Run φ α).Le x := Or.inl rfl

theorem Le.ok {x y : Run φ α} {a : α} (h : x.Le y) (hx : x = ok a) : y = Run.ok a := by
  rcases h with h | h
  · exact absurd (h.symm.trans hx) outOfFuel_ne_ok
  · exact h ▸ hx

theorem Le.bind {x y : Run φ α} {g h : α → Run φ β} (hxy : x.Le y) (hgh : ∀ a, (g a).Le (h a)) :
    (x >>= g).Le (y >>= h) := by
  rcases hxy with rfl | rfl
  · exact outOfFuel_le _
  · rcases x.cases with rfl | ⟨f, rfl⟩ | ⟨a, rfl⟩
    · exact outOfFuel_le _
    · exact Le.refl _
    · exact hgh a

theorem Le.ite {p : Prop} [Decidable p] {x y x' y' : Run φ α} (hx : x.Le x') (hy : y.Le y') :
    (if p then x else y).Le (if p then x' else y') := by
  split_ifs
  · exact hx
  · exact hy

end Run
