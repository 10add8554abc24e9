import Mathlib.Data.List.Basic

/-!
# Words between delimiters

The words of a list are its longest runs of letters, an element being a letter if it is no
delimiter.  Two delimiters next to each other have no word between them.

A list is letters only, or it has a first delimiter (`cut_induction`); and a delimiter ends a word
(`words_append_cons`).  The rest is by these two.
-/

namespace Fsx600.Words

variable {α : Type*} {p : α → Bool} {l w : List α} {d : α}

/-- The words of `l`, where `p` holds of the delimiters. -/
def words (p : α → Bool) (l : List α) : List (List α) := (l.splitOnP p).filter fun w => !w.isEmpty

/-- No delimiter is in the list. -/
def Letters (p : α → Bool) (w : List α) : Prop := ∀ b ∈ w, p b = false

/-- A list of letters, as words: one, unless it is empty. -/
def single (w : List α) : List (List α) := [w].filter fun w => !w.isEmpty

theorem single_nil : single ([] : List α) = [] := rfl

theorem single_of_ne_nil (h : w ≠ []) : single w = [w] := by
  simp [single, h]

@[simp] theorem words_nil (p : α → Bool) : words p [] = [] := by
  simp [words, List.splitOnP_nil]

/-- **A delimiter** ends a word. -/
theorem words_append_cons (hd : p d = true) (x y : List α) :
    words p (x ++ d :: y) = words p x ++ words p y := by
  rw [words, List.splitOnP_append_cons x y hd, List.filter_append]
  rfl

theorem words_cons (hd : p d = true) (l : List α) : words p (d :: l) = words p l := by
  rw [← List.nil_append (d :: l), words_append_cons hd, words_nil, List.nil_append]

/-- Letters only are one word. -/
theorem words_of_letters (h : Letters p w) : words p w = single w := by
  rw [words, List.splitOnP_eq_singleton h]
  rfl

/-- **Cutting at the first delimiter**, as an induction principle. -/
theorem cut_induction {P : List α → Prop} (hlast : ∀ w, Letters p w → P w)
    (hcut : ∀ w d l, Letters p w → p d = true → P l → P (w ++ d :: l)) (l : List α) : P l := by
  -- the letters that have been passed are put in front
  suffices hfront : ∀ w, Letters p w → P (w ++ l) by
    simpa using hfront [] (by simp [Letters])
  induction l with
  | nil =>
    intro w hw
    simpa using hlast w hw
  | cons a l ih =>
    intro w hw
    by_cases ha : p a = true
    · refine hcut w a l hw ha ?_
      simpa using ih [] (by simp [Letters])
    · have hwa : Letters p (w ++ [a]) := by
        intro b hb
        rcases List.mem_append.1 hb with hb | hb
        · exact hw b hb
        · rw [List.mem_singleton.1 hb]
          simpa using ha
      simpa using ih (w ++ [a]) hwa

/-- After the first of several pieces there is a delimiter. -/
theorem exists_of_splitOnP_eq {v : List α} {rest : List (List α)} (h : l.splitOnP p = w :: v :: rest) :
    ∃ d q, l = w ++ d :: q ∧ p d = true := by
  induction l using cut_induction (p := p) with
  | hlast u hu =>
    rw [List.splitOnP_eq_singleton hu] at h
    exact absurd (List.cons.inj h).2 (by simp)
  | hcut u d q hu hd _ =>
    rw [List.splitOnP_append_cons_of_forall_mem hu d hd] at h
    exact ⟨d, q, by rw [(List.cons.inj h).1], hd⟩

/-- Words take room, and so do the delimiters between them. -/
theorem two_mul_length_words (p : α → Bool) (l : List α) : 2 * (words p l).length ≤ l.length + 1 := by
  have hsingle : ∀ w : List α, 2 * (single w).length ≤ w.length + 1 := fun w => by
    cases w with
    | nil => simp [single_nil]
    | cons a w => simp [single_of_ne_nil]
  induction l using cut_induction (p := p) with
  | hlast w hw =>
    rw [words_of_letters hw]
    exact hsingle w
  | hcut w d l hw hd ih =>
    rw [words_append_cons hd, words_of_letters hw, List.length_append, List.length_append, List.length_cons]
    have := hsingle w
    omega

/-- The pieces of lists put one after another, a delimiter before each. -/
theorem splitOnP_flatMap {ws : List (List α)} (hd : p d = true) (h : ∀ w ∈ ws, Letters p w) (l : List α) :
    (ws.flatMap (d :: ·) ++ d :: l).splitOnP p = [] :: (ws ++ l.splitOnP p) := by
  have hcons : ∀ q, (d :: q).splitOnP p = [] :: q.splitOnP p := fun q =>
    List.splitOnP_append_cons_of_forall_mem (List.forall_mem_nil _) d hd q
  induction ws with
  | nil => exact hcons l
  | cons w ws ih =>
    have hrest := ih fun v hv => h v (List.mem_cons_of_mem w hv)
    -- the delimiter after the list is the one before what follows
    obtain ⟨r, hr⟩ : ∃ r, ws.flatMap (d :: ·) ++ d :: l = d :: r := by
      cases ws with
      | nil => exact ⟨l, rfl⟩
      | cons v vs => exact ⟨_, rfl⟩
    rw [hr, hcons, List.cons.injEq] at hrest
    rw [List.flatMap_cons, List.append_assoc, hr, List.cons_append, hcons,
      List.splitOnP_append_cons_of_forall_mem (h w List.mem_cons_self) d hd, hrest.2]
    rfl

end Fsx600.Words
