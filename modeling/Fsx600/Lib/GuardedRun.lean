import Mathlib.Tactic.Common

/-!
# Runs of guarded steps

A partial step relation on states, a guard that says which steps a run may take from
which state, and the runs these make.  `Run.invariant` packages the induction: what
every guarded step keeps holds all along.
-/

namespace GuardedRun

variable {σ α : Type*} {step : σ → α → σ → Prop} {guard guard' : σ → α → Prop}

/-- `Run step guard s t`: finitely many steps lead from `s` to `t`, each of them allowed
by `guard` in the state it is taken from. -/
inductive Run (step : σ → α → σ → Prop) (guard : σ → α → Prop) (s : σ) : σ → Prop
  | refl : Run step guard s s
  | tail {t a u} : Run step guard s t → guard t a → step t a u → Run step guard s u

/-- An invariant that holds at the start and that every guarded step keeps. -/
theorem Run.invariant {P : σ → Prop} {s t : σ} (h : Run step guard s t) (h0 : P s)
    (hstep : ∀ t a u, P t → guard t a → step t a u → P u) : P t := by
  induction h with
  | refl => exact h0
  | tail _ hg hs ih => exact hstep _ _ _ ih hg hs

/-- A run under a guard is a run under any weaker one. -/
theorem Run.mono {s t : σ} (h : Run step guard s t) (hg : ∀ t a, guard t a → guard' t a) :
    Run step guard' s t := by
  induction h with
  | refl => exact .refl
  | tail _ ha hs ih => exact ih.tail (hg _ _ ha) hs

end GuardedRun
