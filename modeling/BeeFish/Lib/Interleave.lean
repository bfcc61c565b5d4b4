/-
# Processes that take turns

Processes share a state and each has one of its own. A run lets them take
single steps in any order, each allowed where it is taken (`Runs`). To know
something of every state of a run it is enough to look at one step of one
process (`Runs.invariant`): what is known of the shared state and of the
process itself must hold again after the step, and what is known of the
others must not be disturbed by it. A ghost value says what the shared state
stands for.

A process that is left alone takes its steps one after the other to its
result (`alone`).

Key definitions: `State`, `Runs`, `Sound`.
-/
import BeeFish.Lib.Fuel
import Mathlib.Logic.Function.Basic
import Mathlib.Tactic.Common

namespace Interleave

/-- What the processes share and what each has. -/
structure State (ι σ τ : Type) where
  shared : σ
  locals : ι → τ

variable {ι σ τ γ : Type} [DecidableEq ι] {next : ι → σ → τ → Option (σ × τ)}
    {ok : State ι σ τ → ι → Prop}
  {s s' s'' : State ι σ τ}

/-- One process takes a step. -/
def State.step (next : ι → σ → τ → Option (σ × τ)) (s : State ι σ τ) (p : ι) :
    Option (State ι σ τ) :=
  (next p s.shared (s.locals p)).map fun (x, t) => ⟨x, Function.update s.locals p t⟩

/-- The processes take steps in the order of the list. -/
def State.steps (next : ι → σ → τ → Option (σ × τ)) (s : State ι σ τ) : List ι →
    Option (State ι σ τ)
  | [] => some s
  | p :: ps => (s.step next p).bind fun s => s.steps next ps

/-- Steps of processes in any order, each allowed where it is taken. -/
inductive Runs (next : ι → σ → τ → Option (σ × τ)) (ok : State ι σ τ → ι → Prop) : State ι σ τ →
    State ι σ τ → Prop
  | refl (s : State ι σ τ) : Runs next ok s s
  | tail {s s' s'' : State ι σ τ} {p : ι} (h : Runs next ok s s') (hp : ok s' p)
      (hs : s'.step next p = some s'') :
    Runs next ok s s''

theorem Runs.trans (h : Runs next ok s s') (h' : Runs next ok s' s'') : Runs next ok s s'' := by
  induction h' with
  | refl => exact h
  | tail _ hp hs ih => exact .tail ih hp hs

theorem Runs.of_steps : ∀ {ps : List ι} {s s' : State ι σ τ}, s.steps next ps = some s' →
    Runs next (fun _ _ => True) s s'
  | [], s, s', h => by
    obtain rfl : s = s' := Option.some.inj h
    exact .refl s
  | p :: ps, s, s', h => by
    obtain ⟨s₁, h₁, h⟩ := Option.bind_eq_some_iff.mp h
    exact (Runs.tail (.refl s) trivial h₁).trans (Runs.of_steps h)

/-- A run of allowed steps is one of steps. -/
theorem Runs.mono {ok' : State ι σ τ → ι → Prop} (hok : ∀ s p, ok s p → ok' s p)
    (h : Runs next ok s s') :
    Runs next ok' s s' := by
  induction h with
  | refl => exact .refl _
  | tail _ hp hs ih => exact .tail ih (hok _ _ hp) hs

/-- The shared state stands for the ghost value, and each process is in order. -/
structure Sound (G : γ → σ → Prop) (Loc : ι → γ → σ → τ → Prop) (g : γ)
    (s : State ι σ τ) : Prop where
  shared : G g s.shared
  locals : ∀ p, Loc p g s.shared (s.locals p)

/-- What one step does to the ghost value, the process that takes it and the
others, it does along every run. -/
theorem Runs.invariant {G : γ → σ → Prop} {Loc : ι → γ → σ → τ → Prop}
    (hstep : ∀ s p g x t, ok s p → Sound G Loc g s → next p s.shared (s.locals p) = some (x, t) →
      ∃ g', G g' x ∧ Loc p g' x t ∧ ∀ q, q ≠ p → Loc q g' x (s.locals q))
    (h : Runs next ok s s') {g : γ} (hs : Sound G Loc g s) : ∃ g', Sound G Loc g' s' := by
  induction h with
  | refl => exact ⟨g, hs⟩
  | @tail s' s'' p _ hp hn ih =>
    obtain ⟨g', hs'⟩ := ih
    obtain ⟨⟨x, t⟩, hx, rfl⟩ := Option.map_eq_some_iff.mp hn
    obtain ⟨g'', hG, hp', hq⟩ := hstep s' p g' x t hp hs' hx
    refine ⟨g'', hG, fun q => ?_⟩
    by_cases hqp : q = p
    · subst hqp
      simpa using hp'
    · simpa [hqp] using hq q hqp

/-! ### One process -/

section

variable {ρ τ' : Type}

/-- Steps up to a result. -/
def alone (f : σ → τ → Option (σ × (τ ⊕ ρ))) : ℕ → σ → τ → Option (σ × ρ)
  | 0, _, _ => none
  | fuel + 1, x, t =>
    (f x t).bind fun
      | (x, .inl t) => alone f fuel x t
      | (x, .inr r) => some (x, r)

/-- Steps up to a result are steps of the process, which is `embed` of where
it stands on the way and `done` of its result. -/
theorem steps_of_alone {f : σ → τ' → Option (σ × (τ' ⊕ ρ))} {embed : τ' → τ} {done : ρ → τ} {p : ι}
    (hnext : ∀ x t, next p x (embed t) = (f x t).map fun r => (r.1, r.2.elim embed done)) :
    ∀ {fuel : ℕ} {x x' : σ} {t : τ'} {r : ρ} {s : State ι σ τ}, alone f fuel x t = some (x', r) →
      s.shared = x →
      s.locals p = embed t → ∃ n, s.steps next (List.replicate n p) =
        some ⟨x', Function.update s.locals p (done r)⟩
  | fuel + 1, x, x', t, r, s, h, hs, hl => by
    obtain ⟨⟨y, e⟩, hf, h⟩ := Option.bind_eq_some_iff.mp h
    have hstep : s.step next p = some ⟨y, Function.update s.locals p (e.elim embed done)⟩ := by
      rw [State.step, hs, hl, hnext, hf]
      rfl
    cases e with
    | inl u =>
      obtain ⟨n, hn⟩ := steps_of_alone hnext (s := ⟨y, Function.update s.locals p (embed u)⟩)
        h rfl (by simp)
      refine ⟨n + 1, ?_⟩
      rw [List.replicate_succ, State.steps, hstep]
      simpa using hn
    | inr r' =>
      obtain ⟨rfl, rfl⟩ := Prod.mk.inj (Option.some.inj h)
      refine ⟨1, ?_⟩
      rw [List.replicate_one, State.steps, hstep]
      rfl

end

/-! ### One process that steps -/

theorem State.steps_append : ∀ (ps qs : List ι) (s : State ι σ τ),
    s.steps next (ps ++ qs) = (s.steps next ps).bind fun s => s.steps next qs
  | [], _, _ => rfl
  | p :: ps, qs, s => by
    rw [List.cons_append, State.steps, State.steps, Option.bind_assoc]
    congr 1
    funext s
    exact State.steps_append ps qs s

/-- Where one process alone steps until it cannot, it ends in one state. -/
theorem steps_replicate_unique {p : ι} {m n : ℕ} (h : s.steps next (List.replicate m p) = some s')
    (hs' : s'.step next p = none) (h' : s.steps next (List.replicate n p) = some s'')
    (hs'' : s''.step next p = none) :
    s' = s'' := by
  wlog hle : m ≤ n generalizing m n s' s''
  · exact (this h' hs'' h hs' (by omega)).symm
  · obtain ⟨k, rfl⟩ := Nat.exists_eq_add_of_le hle
    rw [← List.replicate_append_replicate, State.steps_append, h, Option.bind_some] at h'
    cases k with
    | zero => exact Option.some.inj h'
    | succ k =>
      rw [List.replicate_succ, State.steps, hs'] at h'
      cases h'

/-- Where no process can step, a run ends where it starts. -/
theorem Runs.of_stuck (h : Runs next ok s s') (hstuck : ∀ p, s.step next p = none) : s' = s := by
  induction h with
  | refl => rfl
  | tail _ _ hq ih =>
    rw [ih, hstuck] at hq
    cases hq

/-- Where no other process can step, a run is steps of the one. -/
theorem Runs.replicate {p : ι} (h : Runs next ok s s')
    (hothers : ∀ q x, q ≠ p → next q x (s.locals q) = none) :
    ∃ n, s.steps next (List.replicate n p) = some s' ∧ ∀ q, q ≠ p → s'.locals q = s.locals q := by
  induction h with
  | refl => exact ⟨0, rfl, fun _ _ => rfl⟩
  | @tail s' s'' q _ _ hq ih =>
    obtain ⟨n, hn, hl⟩ := ih
    by_cases hqp : q = p
    · subst hqp
      refine ⟨n + 1, ?_, fun r hr => ?_⟩
      · rw [List.replicate_succ', State.steps_append, hn, Option.bind_some, State.steps, hq]
        rfl
      · obtain ⟨⟨x, t⟩, -, rfl⟩ := Option.map_eq_some_iff.mp hq
        rw [← hl r hr]
        simp [hr]
    · rw [State.step, hl q hqp, hothers q _ hqp] at hq
      cases hq

end Interleave
