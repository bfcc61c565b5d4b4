/-
# Programs on a state

A program takes fuel for its loops and a state, and is none where it throws or
runs out. What is known of a state is a `View` of it: views say how a state may
evolve, and a program that evolves it in steps evolves it as a whole. `Meets p
v Q` is the specification of a program: from the state of `v` it returns, with
enough fuel, and what is known afterwards satisfies `Q`. A caller uses the
specification only (`Meets.bind`).

Key definitions: `View`, `Meets`.
-/
import BeeFish.Lib.Fuel

/-- What is known of the states of `σ`, and how they may evolve. -/
class View (γ : Type) (σ : outParam Type) where
  state : γ → σ
  Evolves : γ → γ → Prop
  refl : ∀ v, Evolves v v
  trans : ∀ {u v w}, Evolves u v → Evolves v w → Evolves u w

/-- From the state of `v` the program returns, in a state that evolved from it,
and `Q` holds of the value and of what is known then. -/
def Meets {γ σ α : Type} [View γ σ] (p : ℕ → StateT σ Option α) (v : γ) (Q : α → γ → Prop) : Prop :=
  ∃ a w, Returns (fun fuel => (p fuel).run (View.state v)) (a, View.state w) ∧
    View.Evolves v w ∧ Q a w

namespace Meets

variable {γ σ α β : Type} [View γ σ] {p : ℕ → StateT σ Option α} {v w : γ} {P Q : α → γ → Prop}

theorem ret {a : α} (h : Q a v) : Meets (fun _ => pure a) v Q :=
  ⟨a, v, ⟨0, fun _ _ => rfl⟩, View.refl v, h⟩

/-- A program without loops. -/
theorem of_run {p : StateT σ Option α} {a : α} (hp : p.run (View.state v) = some (a, View.state w))
    (he : View.Evolves v w)
    (h : Q a w) : Meets (fun _ => p) v Q := ⟨a, w, ⟨0, fun _ _ => hp⟩, he, h⟩

theorem mono (hp : Meets p v P) (h : ∀ a w, View.Evolves v w → P a w → Q a w) : Meets p v Q := by
  obtain ⟨a, w, hr, he, hP⟩ := hp
  exact ⟨a, w, hr, he, h a w he hP⟩

/-- One program after the other. -/
theorem bind {f : α → ℕ → StateT σ Option β} {R : β → γ → Prop} (hp : Meets p v P)
    (hf : ∀ a w, View.Evolves v w → P a w → Meets (f a) w R) :
    Meets (fun fuel => p fuel >>= fun a => f a fuel) v R := by
  obtain ⟨a, w, ⟨n, hn⟩, he, hP⟩ := hp
  obtain ⟨b, u, ⟨m, hm⟩, he', hR⟩ := hf a w he hP
  refine ⟨b, u, ⟨max n m, fun fuel hfuel => ?_⟩, View.trans he he', hR⟩
  have hn' := hn fuel (le_trans (le_max_left _ _) hfuel)
  have hm' := hm fuel (le_trans (le_max_right _ _) hfuel)
  simp only [StateT.run_bind, hn', Option.bind_eq_bind, Option.bind_some, hm']

/-- What a program without loops comes to. -/
theorem exists_run {p : StateT σ Option α} (hp : Meets (fun _ => p) v Q) :
    ∃ a w, p.run (View.state v) = some (a, View.state w) ∧ Q a w := by
  obtain ⟨a, w, ⟨n, hn⟩, -, hQ⟩ := hp
  exact ⟨a, w, hn n le_rfl, hQ⟩

/-- A program that takes one step and goes on. -/
theorem step {f : ℕ → StateT σ Option α} (hp : Meets p v Q) (h : ∀ fuel, f (fuel + 1) = p fuel) :
    Meets f v Q := by
  obtain ⟨a, w, hr, he, hQ⟩ := hp
  exact ⟨a, w, hr.step fun fuel => by rw [h], he, hQ⟩

/-- A program that is another one where that has the fuel. -/
theorem congr {f : ℕ → StateT σ Option α} (hp : Meets p v Q) (h : ∀ fuel, f fuel = p fuel) :
    Meets f v Q := by
  rwa [funext h]

/-- What is known comes from the value and the state. -/
theorem evolves (hp : Meets p v Q) : Meets p v fun a w => View.Evolves v w ∧ Q a w :=
  hp.mono fun _ _ he hQ => ⟨he, hQ⟩

end Meets
