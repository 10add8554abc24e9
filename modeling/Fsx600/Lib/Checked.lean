import Mathlib.Logic.Function.Basic

/-!
# Results of a computation that may stop

A program modelled in `Except ε` either returns or stops: an assertion fires, or
an index leaves its array.  Every statement about such a program has the shape
"if it returns, then …", and every proof of one peels the monadic binds off one
at a time.  The lemmas below do the peeling; they are all there is to know about
`Except` here.
-/

namespace Checked

variable {ε : Type*} {α β : Type}

/-- A bind returns exactly when both halves do. -/
@[simp] theorem bind_eq_ok {m : Except ε α} {k : α → Except ε β} {z : β} :
    (m >>= k) = .ok z ↔ ∃ y, m = .ok y ∧ k y = .ok z := by
  cases m with
  | error e => simp [bind, Except.bind]
  | ok y => simp [bind, Except.bind]

@[simp] theorem pure_eq_ok {a b : α} : (pure a : Except ε α) = .ok b ↔ a = b := by
  simp [pure, Except.pure]

@[simp] theorem ok_bind {a : α} {k : α → Except ε β} : ((.ok a : Except ε α) >>= k) = k a :=
  rfl

/-- A guarded computation returns exactly when its guard holds. -/
@[simp] theorem guard_eq_ok {p : Prop} [Decidable p] {x : Except ε α} {e : ε} {z : α} :
    (if p then x else .error e) = .ok z ↔ p ∧ x = .ok z := by
  split <;> simp_all

/-- A computation returns. -/
def Returns (x : Except ε α) : Prop := ∃ z, x = .ok z

theorem returns_ok (z : α) : Returns (.ok z : Except ε α) := ⟨z, rfl⟩

/-- A bind returns when its first half does and its second half returns on
whatever the first half gave. -/
theorem Returns.bind {m : Except ε α} {k : α → Except ε β} (hm : Returns m)
    (hk : ∀ y, m = .ok y → Returns (k y)) : Returns (m >>= k) := by
  obtain ⟨y, hy⟩ := hm
  obtain ⟨z, hz⟩ := hk y hy
  exact ⟨z, by rw [hy, ok_bind, hz]⟩

/-- What is asked of the value, if there is one. -/
instance decidableForallOk {p : α → Prop} [∀ z, Decidable (p z)] :
    (x : Except ε α) → Decidable (∀ z, x = .ok z → p z)
  | .error _ => .isTrue fun _ h => nomatch h
  | .ok z => decidable_of_iff (p z) ⟨fun hz _ h => Except.ok.inj h ▸ hz, fun h => h z rfl⟩

/-- If a computation stops, it is not for one of the reasons in `P`. -/
def Avoids (P : ε → Prop) (x : Except ε α) : Prop := ∀ e, x = .error e → ¬ P e

theorem avoids_ok {P : ε → Prop} (z : α) : Avoids P (.ok z : Except ε α) := by
  intro e h
  cases h

theorem avoids_error {P : ε → Prop} {e : ε} (h : ¬ P e) : Avoids P (.error e : Except ε α) :=
  fun _ he => Except.error.inj he ▸ h

theorem Avoids.bind {P : ε → Prop} {m : Except ε α} {k : α → Except ε β} (hm : Avoids P m)
    (hk : ∀ y, m = .ok y → Avoids P (k y)) : Avoids P (m >>= k) := by
  cases m with
  | error e => exact avoids_error (hm e rfl)
  | ok y => exact hk y rfl

/-- A computation returns, and what it returns satisfies `P`. -/
def Yields (x : Except ε α) (P : α → Prop) : Prop := ∃ z, x = .ok z ∧ P z

theorem yields_ok {P : α → Prop} {z : α} (h : P z) : Yields (.ok z : Except ε α) P := ⟨z, rfl, h⟩

theorem yields_of_eq {P : α → Prop} {x : Except ε α} {z : α} (hx : x = .ok z) (h : P z) :
    Yields x P := ⟨z, hx, h⟩

theorem Returns.yields {x : Except ε α} (h : Returns x) : Yields x fun _ => True := by
  obtain ⟨z, hz⟩ := h
  exact ⟨z, hz, trivial⟩

theorem Yields.mono {P Q : α → Prop} {x : Except ε α} (hx : Yields x P) (h : ∀ z, P z → Q z) :
    Yields x Q := by
  obtain ⟨z, hz, hP⟩ := hx
  exact ⟨z, hz, h z hP⟩

/-- The rule for a bind. -/
theorem Yields.bind {P : α → Prop} {Q : β → Prop} {m : Except ε α} {k : α → Except ε β}
    (hm : Yields m P) (hk : ∀ y, P y → Yields (k y) Q) : Yields (m >>= k) Q := by
  obtain ⟨y, hy, hP⟩ := hm
  rw [hy, ok_bind]
  exact hk y hP

/-- The members of a list that pass a test, where the test may stop. -/
def filter (p : α → Except ε Bool) : List α → Except ε (List α)
  | [] => .ok []
  | a :: l => do
    let b ← p a
    let l ← filter p l
    return if b then a :: l else l

/-- Filtering returns when the test does on every member. -/
theorem filter_returns {p : α → Except ε Bool} {l : List α} (h : ∀ a ∈ l, Returns (p a)) :
    Returns (filter p l) := by
  induction l with
  | nil => exact returns_ok _
  | cons a l ih =>
    refine (h a List.mem_cons_self).bind fun b _ => ?_
    exact (ih fun c hc => h c (List.mem_cons_of_mem _ hc)).bind fun l' _ => returns_ok _

/-- A test that returns on every member filters the list. -/
theorem filter_eq_ok {p : α → Except ε Bool} {q : α → Bool} {l : List α}
    (h : ∀ a ∈ l, p a = .ok (q a)) : filter p l = .ok (l.filter q) := by
  induction l with
  | nil => rfl
  | cons a l ih =>
    rw [filter, h a List.mem_cons_self, ih fun b hb => h b (List.mem_cons_of_mem _ hb),
      List.filter_cons]
    rfl

/-- If the filter returns, the list is what passes the test. -/
theorem eq_filter_of_ok {p : α → Except ε Bool} {q : α → Bool} {l l' : List α}
    (h : filter p l = .ok l') (hq : ∀ a b, p a = .ok b → b = q a) : l' = l.filter q := by
  induction l generalizing l' with
  | nil => exact (Except.ok.inj h).symm
  | cons a l ih =>
    rw [filter, bind_eq_ok] at h
    obtain ⟨b, hb, h⟩ := h
    rw [bind_eq_ok] at h
    obtain ⟨m, hm, h⟩ := h
    obtain rfl := hq a b hb
    obtain rfl := ih hm
    obtain rfl := pure_eq_ok.1 h
    rw [List.filter_cons]

end Checked
