import Mathlib.Tactic.Common

/-!
# An array under writes of ranges

The contents of an array after a sequence of writes, each to a range of cells: a cell holds what
the last write that covers it has put there, or what it held at first (`storeAll_eq`).

Arrays are functions on all of `ℕ`; where the array ends is up to those who write to it.  An array
of cells can be looked at in groups of `n`, and then a write of whole groups is a write of one
range of them (`group_store`).
-/

namespace RangeArray

variable {α : Type*}

/-- A write to the `len` cells from `first` on: cell `first + k` gets `data k`. -/
structure Write (α : Type*) where
  first : ℕ
  len : ℕ
  data : ℕ → α

/-- The cell is one of those that are written to. -/
def Write.Covers (w : Write α) (x : ℕ) : Prop := w.first ≤ x ∧ x < w.first + w.len

instance (w : Write α) (x : ℕ) : Decidable (w.Covers x) :=
  inferInstanceAs (Decidable (_ ∧ _))

/-- The array after a write. -/
def store (a : ℕ → α) (w : Write α) : ℕ → α := fun x => if w.Covers x then w.data (x - w.first) else a x

theorem store_of_covers {a : ℕ → α} {w : Write α} {x : ℕ} (h : w.Covers x) :
    store a w x = w.data (x - w.first) := if_pos h

/-- A write leaves the other cells alone. -/
theorem store_of_not_covers {a : ℕ → α} {w : Write α} {x : ℕ} (h : ¬ w.Covers x) : store a w x = a x :=
  if_neg h

/-- What is past the end of the data is not written. -/
theorem store_congr {a d d' : ℕ → α} {first len : ℕ} (h : ∀ k < len, d k = d' k) :
    store a ⟨first, len, d⟩ = store a ⟨first, len, d'⟩ := by
  funext x
  by_cases hx : (Write.mk first len d).Covers x
  · have hk : x - first < len := by
      obtain ⟨h1, h2⟩ := hx
      dsimp only at h1 h2
      omega
    exact (store_of_covers hx).trans ((h _ hk).trans (store_of_covers (w := ⟨first, len, d'⟩) hx).symm)
  · exact (store_of_not_covers hx).trans (store_of_not_covers (w := ⟨first, len, d'⟩) hx).symm

/-- A write to one cell. -/
theorem store_one (a : ℕ → α) (p : ℕ) (d : ℕ → α) : store a ⟨p, 1, d⟩ = Function.update a p (d 0) := by
  funext x
  have hcovers : (Write.mk p 1 d).Covers x ↔ x = p := by
    unfold Write.Covers
    dsimp only
    omega
  by_cases hx : x = p
  · rw [store_of_covers (hcovers.2 hx), hx, Function.update_self, Nat.sub_self]
  · rw [store_of_not_covers (mt hcovers.1 hx), Function.update_of_ne hx]

/-- The array after writes one after another. -/
def storeAll : (ℕ → α) → List (Write α) → ℕ → α
  | a, [] => a
  | a, w :: ws => storeAll (store a w) ws

/-- What the last write that covers the cell has put there. -/
def lastWrite (x : ℕ) : List (Write α) → Option α
  | [] => none
  | w :: ws => (lastWrite x ws).or (if w.Covers x then some (w.data (x - w.first)) else none)

/-- **The history decides the contents.** -/
theorem storeAll_eq (a : ℕ → α) (ws : List (Write α)) (x : ℕ) :
    storeAll a ws x = (lastWrite x ws).getD (a x) := by
  induction ws generalizing a with
  | nil => rfl
  | cons w ws ih =>
    rw [storeAll, ih, lastWrite]
    cases lastWrite x ws with
    | some y => rfl
    | none =>
      by_cases h : w.Covers x
      · rw [store_of_covers h, if_pos h]
        rfl
      · rw [store_of_not_covers h, if_neg h]
        rfl

/-! ## Groups of cells -/

/-- The array in groups of `n` cells. -/
def group (n : ℕ) (a : ℕ → α) (b : ℕ) : Fin n → α := fun x => a (n * b + x)

/-- A write of whole groups. -/
theorem group_store {n : ℕ} (a : ℕ → α) (first len : ℕ) (data : ℕ → α) :
    group n (store a ⟨n * first, n * len, data⟩) = store (group n a) ⟨first, len, group n data⟩ := by
  funext b
  have hcovers : ∀ x : Fin n, (Write.mk (n * first) (n * len) data).Covers (n * b + x) ↔
      (Write.mk first len (group n data)).Covers b := by
    intro x
    unfold Write.Covers
    have hx := x.isLt
    have hlt : ∀ c, n * b + x < n * c ↔ b < c := fun c => by
      constructor
      · exact fun h => Nat.lt_of_mul_lt_mul_left (a := n) (by omega)
      · intro h
        have := Nat.mul_le_mul_left n (show b + 1 ≤ c from h)
        rw [Nat.mul_add] at this
        omega
    dsimp only
    rw [← Nat.mul_add, hlt, ← Nat.not_lt, hlt, Nat.not_lt]
  by_cases h : (Write.mk first len (group n data)).Covers b
  · rw [store_of_covers h]
    funext x
    refine (store_of_covers ((hcovers x).2 h)).trans (congrArg data ?_)
    have hb : n * b = n * first + n * (b - first) := by rw [← Nat.mul_add, Nat.add_sub_cancel' h.1]
    show n * b + x - n * first = n * (b - first) + x
    omega
  · rw [store_of_not_covers h]
    funext x
    exact store_of_not_covers fun hx => h ((hcovers x).1 hx)

end RangeArray
