import Mathlib.Tactic.Common

/-!
# A program that follows a model

A program whose calls return a value, a model of it, and what an observer of the program may
expect of its state when the model is in a given one.  A step of the model sees the state
of the program too: what the model leaves out, such as how many resources are left, may
decide whether a call succeeds.

`Follows` is about every prefix of a list of calls, and `Simulation.follows` is the induction
over the list.
-/

namespace Refinement

variable {σ τ α ρ : Type*}

/-- Whatever the calls return, the model has a step for each of them, and before and after
each the observer sees what the model says. -/
def Follows (step : σ → α → ρ → σ → Prop) (model : σ → τ → α → ρ → τ → Prop) (obs : σ → τ → Prop) :
    σ → τ → List α → Prop
  | s, m, [] => obs s m
  | s, m, a :: calls => obs s m ∧ (∃ r s', step s a r s') ∧
      ∀ r s', step s a r s' → ∃ m', model s m a r m' ∧ Follows step model obs s' m' calls

/-- `rel` relates the states of the program to those of the model in such a way that a call
that `guard` allows returns, and is matched by a step of the model. -/
structure Simulation (step : σ → α → ρ → σ → Prop) (model : σ → τ → α → ρ → τ → Prop)
    (obs : σ → τ → Prop) (guard : α → Prop) (rel : σ → τ → Prop) : Prop where
  observed : ∀ {s m}, rel s m → obs s m
  returns : ∀ {s m a}, rel s m → guard a → ∃ r s', step s a r s'
  matched : ∀ {s m a r s'}, rel s m → guard a → step s a r s' → ∃ m', model s m a r m' ∧ rel s' m'

variable {step : σ → α → ρ → σ → Prop} {model : σ → τ → α → ρ → τ → Prop} {obs : σ → τ → Prop}
  {guard : α → Prop} {rel : σ → τ → Prop}

/-- **From one call to all of them.** -/
theorem Simulation.follows (h : Simulation step model obs guard rel) {s : σ} {m : τ}
    (hrel : rel s m) {calls : List α} (hcalls : ∀ a ∈ calls, guard a) :
    Follows step model obs s m calls := by
  induction calls generalizing s m with
  | nil => exact h.observed hrel
  | cons a calls ih =>
    have ha : guard a := hcalls a List.mem_cons_self
    refine ⟨h.observed hrel, h.returns hrel ha, fun r s' hs' => ?_⟩
    obtain ⟨m', hm', hrel'⟩ := h.matched hrel ha hs'
    exact ⟨m', hm', ih hrel' fun b hb => hcalls b (List.mem_cons_of_mem a hb)⟩

end Refinement
