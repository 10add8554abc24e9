import Fsx600.Lib.Checked

/-!
# Two computations side by side

`Matches R` lifts a relation on values to computations that may stop: both stop, for the same
reason, or both return and what they return is related.  It is the relational counterpart of
`Yields`; the rules follow a bind through, and take a step that reads the same on both sides
out of the way.
-/

namespace Checked

variable {ε : Type*} {α β γ δ : Type}

/-- Both stop alike, or both return related values. -/
inductive Matches (R : α → β → Prop) : Except ε α → Except ε β → Prop
  | error (e : ε) : Matches R (.error e) (.error e)
  | ok {a : α} {b : β} (h : R a b) : Matches R (.ok a) (.ok b)

variable {R : α → β → Prop} {S : γ → δ → Prop} {x : Except ε α} {y : Except ε β}

theorem Matches.mono {R' : α → β → Prop} (h : Matches R x y) (hR : ∀ a b, R a b → R' a b) :
    Matches R' x y := by
  cases h with
  | error e => exact .error e
  | ok h => exact .ok (hR _ _ h)

/-- The rule for a bind. -/
theorem Matches.bind {k : α → Except ε γ} {l : β → Except ε δ} (h : Matches R x y)
    (hk : ∀ a b, R a b → Matches S (k a) (l b)) : Matches S (x >>= k) (y >>= l) := by
  cases h with
  | error e => exact .error e
  | ok h => exact hk _ _ h

/-- The rule for a bind whose first half is the same on both sides. -/
theorem Matches.bind_eq {x' : Except ε α} {k : α → Except ε γ} {l : α → Except ε δ} (h : x' = x)
    (hk : ∀ a, Matches S (k a) (l a)) : Matches S (x >>= k) (x' >>= l) := by
  subst h
  cases x' with
  | error e => exact .error e
  | ok a => exact hk a

/-- The rule for a test that comes out the same on both sides. -/
theorem Matches.ite {p : Prop} [Decidable p] {x' : Except ε α} {y' : Except ε β}
    (ht : Matches R x y) (hf : Matches R x' y') :
    Matches R (if p then x else x') (if p then y else y') := by
  split
  · exact ht
  · exact hf

/-- If the one returns, so does the other. -/
theorem Matches.of_ok {a : α} (h : Matches R x y) (hx : x = .ok a) : ∃ b, y = .ok b ∧ R a b := by
  cases h with
  | error e => cases hx
  | ok h =>
    obtain rfl := Except.ok.inj hx
    exact ⟨_, rfl, h⟩

/-- If the one stops, so does the other. -/
theorem Matches.of_error {e : ε} (h : Matches R x y) (hx : x = .error e) : y = .error e := by
  cases h with
  | error e' => rw [Except.error.inj hx]
  | ok h => cases hx

end Checked
