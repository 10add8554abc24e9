import Fsx600.Lib.Checked
import Mathlib.Order.Interval.Finset.Nat
import Mathlib.Data.Finset.Card

/-!
# First-fit allocation from a bitmap

The allocator that takes the lowest clear bit of a range.  `scan` is the loop,
with a bound on the array it reads; `scan_eq_some` and `scan_eq_none` are all a
caller needs of it.  `clear` counts what is left: marking a clear bit takes
exactly one from it.  `count` is the loop that finds that number, with the same bound.
-/

namespace FirstFit

open Checked Function

variable {ε : Type*} {fault : ℕ → ε} {size : ℕ} {m : ℕ → Bool}

/-- Look at the `n` indices from `i` on, and return the first that is clear.
Reading at or past `size` stops the program. -/
def scan (fault : ℕ → ε) (size : ℕ) (m : ℕ → Bool) : ℕ → ℕ → Except ε (Option ℕ)
  | 0, _ => .ok none
  | n + 1, i =>
    if i < size then
      if m i then scan fault size m n (i + 1) else .ok (some i)
    else .error (fault i)

/-- A scan sees no more of the bitmap than what is below `size`. -/
theorem scan_congr {m' : ℕ → Bool} (h : ∀ i < size, m' i = m i) (n i : ℕ) :
    scan fault size m' n i = scan fault size m n i := by
  induction n generalizing i with
  | zero => rfl
  | succ n ih =>
    rw [scan, scan, ih]
    by_cases hi : i < size
    · rw [if_pos hi, if_pos hi, h i hi]
    · rw [if_neg hi, if_neg hi]

/-- A scan that finds an index has found the first clear one. -/
theorem scan_eq_some {n i b : ℕ} (h : scan fault size m n i = .ok (some b)) :
    i ≤ b ∧ b < i + n ∧ b < size ∧ m b = false ∧ ∀ x, i ≤ x → x < b → m x = true := by
  induction n generalizing i with
  | zero => simp [scan] at h
  | succ n ih =>
    rw [scan, guard_eq_ok] at h
    obtain ⟨hi, h⟩ := h
    by_cases hm : m i = true
    · rw [if_pos hm] at h
      obtain ⟨h1, h2, h3, h4, h5⟩ := ih h
      refine ⟨by omega, by omega, h3, h4, fun x hx hxb => ?_⟩
      rcases Nat.eq_or_lt_of_le hx with rfl | hlt
      · exact hm
      · exact h5 x hlt hxb
    · rw [if_neg hm] at h
      obtain rfl : i = b := by simpa using h
      exact ⟨le_rfl, by omega, hi, by simpa using hm, fun x h1 h2 => by omega⟩

/-- A scan that finds none has seen every bit set. -/
theorem scan_eq_none {n i : ℕ} (h : scan fault size m n i = .ok none) :
    ∀ x, i ≤ x → x < i + n → m x = true := by
  induction n generalizing i with
  | zero => intro x h1 h2; omega
  | succ n ih =>
    rw [scan, guard_eq_ok] at h
    obtain ⟨-, h⟩ := h
    by_cases hm : m i = true
    · rw [if_pos hm] at h
      intro x hx hxn
      rcases Nat.eq_or_lt_of_le hx with rfl | hlt
      · exact hm
      · exact ih h x hlt (by omega)
    · rw [if_neg hm] at h
      simp at h

/-- A scan inside the array returns. -/
theorem scan_returns {n i : ℕ} (h : 0 < n → i + n ≤ size) : Returns (scan fault size m n i) := by
  induction n generalizing i with
  | zero => exact returns_ok _
  | succ n ih =>
    rw [scan, if_pos (by omega)]
    split
    · exact ih (by omega)
    · exact returns_ok _

theorem scan_avoids {P : ε → Prop} (hP : ∀ i, ¬ P (fault i)) {n i : ℕ} :
    Avoids P (scan fault size m n i) := by
  induction n generalizing i with
  | zero => exact avoids_ok _
  | succ n ih =>
    rw [scan]
    split
    · split
      · exact ih
      · exact avoids_ok _
    · exact avoids_error (hP i)

/-! ## What is left -/

/-- Some of the first `n` numbers are left over by a set that has fewer than `n`. -/
theorem card_lt_iff_exists_notMem {S : Finset ℕ} {n : ℕ} (h : S ⊆ Finset.range n) :
    S.card < n ↔ ∃ i < n, i ∉ S := by
  constructor
  · intro hlt
    by_contra hno
    have hall : Finset.range n ⊆ S := by
      intro i hi
      by_contra hi'
      exact hno ⟨i, Finset.mem_range.mp hi, hi'⟩
    have hle := Finset.card_le_card hall
    rw [Finset.card_range] at hle
    omega
  · rintro ⟨i, hi, hnot⟩
    have hlt := Finset.card_lt_card (Finset.ssubset_iff_subset_ne.mpr
      ⟨h, fun heq => hnot (heq ▸ Finset.mem_range.mpr hi)⟩)
    rwa [Finset.card_range] at hlt

/-- The clear bits of a range. -/
def clear (m : ℕ → Bool) (lo hi : ℕ) : Finset ℕ := (Finset.Ico lo hi).filter fun b => m b = false

theorem mem_clear {lo hi b : ℕ} : b ∈ clear m lo hi ↔ lo ≤ b ∧ b < hi ∧ m b = false := by
  simp [clear, and_assoc]

theorem clear_mark {lo hi b : ℕ} : clear (update m b true) lo hi = (clear m lo hi).erase b := by
  ext x
  rw [Finset.mem_erase, mem_clear, mem_clear, update_apply]
  by_cases hx : x = b <;> simp [hx]

/-- Marking a clear bit takes one from the clear bits. -/
theorem card_clear_mark {lo hi b : ℕ} (hb : b ∈ clear m lo hi) :
    (clear (update m b true) lo hi).card + 1 = (clear m lo hi).card := by
  rw [clear_mark]
  exact Finset.card_erase_add_one hb

/-- The marked bits of a range. -/
def marked (m : ℕ → Bool) (lo hi : ℕ) : Finset ℕ := (Finset.Ico lo hi).filter fun b => m b = true

/-- What is not marked is clear. -/
theorem card_marked_add_card_clear (m : ℕ → Bool) (lo hi : ℕ) :
    (marked m lo hi).card + (clear m lo hi).card = hi - lo := by
  have hclear : clear m lo hi = (Finset.Ico lo hi).filter fun b => ¬ m b = true :=
    Finset.filter_congr fun b _ => (Bool.not_eq_true (m b)).symm ▸ Iff.rfl
  rw [marked, hclear, Finset.card_filter_add_card_filter_not, Nat.card_Ico]

theorem card_clear_add_card_clear {lo mid hi : ℕ} (h1 : lo ≤ mid) (h2 : mid ≤ hi) :
    (clear m lo mid).card + (clear m mid hi).card = (clear m lo hi).card := by
  have hdisj : Disjoint (clear m lo mid) (clear m mid hi) :=
    (Finset.Ico_disjoint_Ico_consecutive lo mid hi).mono (Finset.filter_subset ..) (Finset.filter_subset ..)
  rw [← Finset.card_union_of_disjoint hdisj, clear, clear, ← Finset.filter_union,
    Finset.Ico_union_Ico_eq_Ico h1 h2, clear]

/-- A range in which every bit is set. -/
theorem clear_eq_empty {lo hi : ℕ} (h : ∀ b, lo ≤ b → b < hi → m b = true) : clear m lo hi = ∅ :=
  Finset.filter_eq_empty_iff.2 fun b hb => by
    obtain ⟨h1, h2⟩ := Finset.mem_Ico.1 hb
    rw [h b h1 h2]
    exact Bool.noConfusion

/-- A range in which no bit is set. -/
theorem card_clear_of_clear {lo hi : ℕ} (h : ∀ b, lo ≤ b → b < hi → m b = false) :
    (clear m lo hi).card = hi - lo := by
  have hall : clear m lo hi = Finset.Ico lo hi :=
    Finset.filter_eq_self.2 fun b hb => h b (Finset.mem_Ico.1 hb).1 (Finset.mem_Ico.1 hb).2
  rw [hall, Nat.card_Ico]

/-- Look at the `n` indices from `i` on, and add one to `cnt` for each that is clear. -/
def count (fault : ℕ → ε) (size : ℕ) (m : ℕ → Bool) : ℕ → ℕ → ℕ → Except ε ℕ
  | 0, _, cnt => .ok cnt
  | n + 1, i, cnt =>
    if i < size then count fault size m n (i + 1) (if m i then cnt else cnt + 1)
    else .error (fault i)

/-- Counting inside the array gives the number of clear bits. -/
theorem count_congr {m' : ℕ → Bool} (h : ∀ i < size, m' i = m i) (n i cnt : ℕ) :
    count fault size m' n i cnt = count fault size m n i cnt := by
  induction n generalizing i cnt with
  | zero => rfl
  | succ n ih =>
    rw [count, count, ih]
    by_cases hi : i < size
    · rw [if_pos hi, if_pos hi, h i hi]
    · rw [if_neg hi, if_neg hi]

theorem count_eq {n i cnt : ℕ} (h : i + n ≤ size) :
    count fault size m n i cnt = .ok (cnt + (clear m i (i + n)).card) := by
  induction n generalizing i cnt with
  | zero => simp [count, clear]
  | succ n ih =>
    have hhead : (clear m i (i + 1)).card = if m i then 0 else 1 := by
      rw [clear, Nat.Ico_succ_singleton, Finset.filter_singleton]
      cases m i <;> rfl
    have hend : i + (n + 1) = i + 1 + n := by omega
    have hsplit := card_clear_add_card_clear (m := m) (Nat.le_add_right i 1) (Nat.le_add_right (i + 1) n)
    rw [count, if_pos (by omega), ih (by omega), hend, ← hsplit, hhead]
    congr 1
    split <;> omega

/-- The clear bits of a range, lowest first: the order in which they are handed out. -/
def clearList (m : ℕ → Bool) (lo hi : ℕ) : List ℕ := (List.range' lo (hi - lo)).filter fun b => !m b

theorem mem_clearList {lo hi b : ℕ} : b ∈ clearList m lo hi ↔ lo ≤ b ∧ b < hi ∧ m b = false := by
  rw [clearList, List.mem_filter, List.mem_range'_1, Bool.not_eq_true', and_assoc]
  constructor
  · rintro ⟨h1, h2, h3⟩
    exact ⟨h1, by omega, h3⟩
  · rintro ⟨h1, h2, h3⟩
    exact ⟨h1, by omega, h3⟩

/-- **The lowest clear bit is the head** of the list, and marking it leaves the tail. -/
theorem clearList_eq_cons {lo hi b : ℕ} (hlo : lo ≤ b) (hhi : b < hi) (hb : m b = false)
    (hleast : ∀ x, lo ≤ x → x < b → m x = true) :
    clearList m lo hi = b :: clearList (update m b true) lo hi := by
  have hsplit : List.range' lo (hi - lo) =
      List.range' lo (b - lo) ++ b :: List.range' (b + 1) (hi - (b + 1)) := by
    have hlen : hi - lo = (b - lo) + (hi - b) := by omega
    have htail : hi - b = (hi - (b + 1)) + 1 := by omega
    rw [hlen, ← List.range'_append_1, Nat.add_sub_cancel' hlo, htail, List.range'_succ]
  have hlow : ∀ m' : ℕ → Bool, (∀ x, lo ≤ x → x < b → m' x = true) →
      (List.range' lo (b - lo)).filter (fun x => !m' x) = [] := by
    intro m' hm'
    rw [List.filter_eq_nil_iff]
    intro x hx
    obtain ⟨h1, h2⟩ := List.mem_range'_1.mp hx
    simp [hm' x h1 (by omega)]
  have hhigh : (List.range' (b + 1) (hi - (b + 1))).filter (fun x => !update m b true x) =
      (List.range' (b + 1) (hi - (b + 1))).filter fun x => !m x := by
    refine List.filter_congr fun x hx => ?_
    obtain ⟨h1, -⟩ := List.mem_range'_1.mp hx
    rw [update_of_ne (by omega)]
  rw [clearList, clearList, hsplit, List.filter_append, List.filter_append, hlow m hleast, hlow,
    List.filter_cons_of_pos (by simp [hb]), List.filter_cons_of_neg (by simp), hhigh]
  · rfl
  · intro x h1 h2
    rw [update_of_ne (by omega), hleast x h1 h2]

end FirstFit
