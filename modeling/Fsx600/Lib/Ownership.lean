import Mathlib.Tactic.Common

/-!
# Ownership of resources

A store in which *sites* hold *resources*: `own i = some b` says that site `i` holds
`b`.  The allocator of the store knows which resources are in use, and the two have
to agree: what is held is in use and held once (`Sound`), and what is in use is held
(`Covered`).

A store changes by giving a free resource to an empty site, by taking resources away
from sites, or by neither; there is one rule for each.
-/

namespace Ownership

variable {ι β : Type*} {own own' : ι → Option β} {inUse inUse' : β → Prop}

/-- What is held is in use, and held by one site only. -/
structure Sound (own : ι → Option β) (inUse : β → Prop) : Prop where
  used : ∀ {i b}, own i = some b → inUse b
  inj : ∀ {i j b}, own i = some b → own j = some b → i = j

/-- Every resource in use is held by a site. -/
def Covered (own : ι → Option β) (inUse : β → Prop) : Prop := ∀ b, inUse b → ∃ i, own i = some b

/-- A resource in use is held by exactly one site: the two halves together. -/
theorem Sound.existsUnique (h : Sound own inUse) {i : ι} {b : β} (hi : own i = some b) :
    ∃! j, own j = some b :=
  ⟨i, hi, fun _ hj => h.inj hj hi⟩

/-- Taking resources away: nothing is held that was not, and what still is held is
still in use. -/
theorem Sound.release (h : Sound own inUse) (hown : ∀ i b, own' i = some b → own i = some b)
    (hused : ∀ i b, own' i = some b → inUse b → inUse' b) : Sound own' inUse' where
  used := fun hi => hused _ _ hi (h.used (hown _ _ hi))
  inj := fun hi hj => h.inj (hown _ _ hi) (hown _ _ hj)

/-- Giving a resource that was not in use to a site. -/
theorem Sound.attach (h : Sound own inUse) {x : ι} {f : β} (hf : ¬ inUse f)
    (hown : ∀ i b, own' i = some b → own i = some b ∨ i = x ∧ b = f)
    (hused : ∀ b, inUse b → inUse' b) (hf' : inUse' f) : Sound own' inUse' where
  used := fun {i b} hi => by
    rcases hown i b hi with hi | ⟨-, rfl⟩
    · exact hused b (h.used hi)
    · exact hf'
  inj := fun {i j b} hi hj => by
    rcases hown i b hi with hi | ⟨rfl, rfl⟩ <;> rcases hown j _ hj with hj | ⟨h1, h2⟩
    · exact h.inj hi hj
    · subst h2
      exact absurd (h.used hi) hf
    · exact absurd (h.used hj) hf
    · exact h1.symm

/-- Nothing is leaked when every resource newly in use gets a holder and every holder
that loses a resource gives it back. -/
theorem Covered.step (h : Covered own inUse)
    (hnew : ∀ b, inUse' b → inUse b ∨ ∃ i, own' i = some b)
    (hold : ∀ i b, own i = some b → inUse' b → ∃ j, own' j = some b) : Covered own' inUse' := by
  intro b hb
  rcases hnew b hb with hb' | hb'
  · obtain ⟨i, hi⟩ := h b hb'
    exact hold i b hi hb
  · exact hb'

end Ownership
