import Mathlib.Data.Finset.Card
import Mathlib.Logic.Relation
import Mathlib.Tactic.Common

/-!
# Rooted trees with labelled edges

A tree given by what a store of it can check: which nodes there are, which of them
may have children, and a relation `edge d i c` for "under label `i`, node `d` names
node `c`".  The two ways such a tree changes are by one leaf: `insert` adds one
under a label not in use, and `erase` takes one away.

`path_unique` is what the labels are for: a node is named by one path only.  That does not
take a tree: it is enough that no node is named twice (`Arborescent`), also when one label
of a node names two.
-/

variable {ν ι : Type*}

/-- The nodes `node`, the inner nodes `dir` and the relation `edge` form a tree under
`root`. -/
structure LabelledTree (node dir : ν → Prop) (root : ν) (edge : ν → ι → ν → Prop) : Prop where
  root_node : node root
  root_dir : dir root
  source : ∀ {d i c}, edge d i c → node d ∧ dir d
  target : ∀ {d i c}, edge d i c → node c ∧ c ≠ root
  functional : ∀ {d i c c'}, edge d i c → edge d i c' → c = c'
  parent_exists : ∀ {c}, node c → c ≠ root → ∃ d i, edge d i c
  parent_unique : ∀ {d i d' i' c}, edge d i c → edge d' i' c → d = d' ∧ i = i'
  reach : ∀ {d}, node d → dir d → Relation.ReflTransGen (fun d c => ∃ i, edge d i c) root d

/-- No edge enters the root, and no more than one enters any other node. -/
structure Arborescent (node : ν → Prop) (root : ν) (edge : ν → ι → ν → Prop) : Prop where
  root_node : node root
  target : ∀ {d i c}, edge d i c → node c ∧ c ≠ root
  parent_unique : ∀ {d i d' i' c}, edge d i c → edge d' i' c → d = d' ∧ i = i'

namespace LabelledTree

variable {node dir node' dir' : ν → Prop} {root : ν} {edge edge' : ν → ι → ν → Prop}

theorem arborescent (h : LabelledTree node dir root edge) : Arborescent node root edge :=
  ⟨h.root_node, h.target, h.parent_unique⟩

/-- **Adding a leaf.**  A node that was not there, named under a label of an inner
node that named nothing. -/
theorem insert (h : LabelledTree node dir root edge) {n p : ν} {i : ι} (hn : ¬ node n)
    (hp : node p) (hpd : dir p) (hfree : ∀ c, ¬ edge p i c)
    (hnode : ∀ x, node' x ↔ node x ∨ x = n) (hdir : ∀ x, node x → (dir' x ↔ dir x))
    (hedge : ∀ d j c, edge' d j c ↔ edge d j c ∨ d = p ∧ j = i ∧ c = n) :
    LabelledTree node' dir' root edge' := by
  have hnew : ∀ {d j}, ¬ edge d j n := fun he => hn (h.target he).1
  have hmono : ∀ {d}, Relation.ReflTransGen (fun d c => ∃ i, edge d i c) root d →
      Relation.ReflTransGen (fun d c => ∃ i, edge' d i c) root d := fun hr =>
    Relation.ReflTransGen.mono (fun d c ⟨j, hj⟩ => ⟨j, (hedge d j c).2 (Or.inl hj)⟩) _ _ hr
  refine ⟨(hnode _).2 (Or.inl h.root_node), (hdir _ h.root_node).2 h.root_dir, fun he => ?_,
    fun he => ?_, fun he he' => ?_, fun hc hr => ?_, fun he he' => ?_, fun hd hdd => ?_⟩
  · rcases (hedge _ _ _).1 he with he | ⟨rfl, -, -⟩
    · obtain ⟨h1, h2⟩ := h.source he
      exact ⟨(hnode _).2 (Or.inl h1), (hdir _ h1).2 h2⟩
    · exact ⟨(hnode _).2 (Or.inl hp), (hdir _ hp).2 hpd⟩
  · rcases (hedge _ _ _).1 he with he | ⟨-, -, rfl⟩
    · obtain ⟨h1, h2⟩ := h.target he
      exact ⟨(hnode _).2 (Or.inl h1), h2⟩
    · exact ⟨(hnode _).2 (Or.inr rfl), fun hr => hn (hr ▸ h.root_node)⟩
  · rcases (hedge _ _ _).1 he with he | ⟨rfl, rfl, rfl⟩ <;>
      rcases (hedge _ _ _).1 he' with he' | ⟨h1, h2, h3⟩
    · exact h.functional he he'
    · subst h1 h2
      exact absurd he (hfree _)
    · exact absurd he' (hfree _)
    · exact h3.symm
  · rcases (hnode _).1 hc with hc | rfl
    · obtain ⟨d, j, he⟩ := h.parent_exists hc hr
      exact ⟨d, j, (hedge _ _ _).2 (Or.inl he)⟩
    · exact ⟨p, i, (hedge _ _ _).2 (Or.inr ⟨rfl, rfl, rfl⟩)⟩
  · rcases (hedge _ _ _).1 he with he | ⟨rfl, rfl, rfl⟩ <;>
      rcases (hedge _ _ _).1 he' with he' | ⟨h1, h2, h3⟩
    · exact h.parent_unique he he'
    · subst h3
      exact absurd he hnew
    · exact absurd he' hnew
    · exact ⟨h1.symm, h2.symm⟩
  · rcases (hnode _).1 hd with hd | rfl
    · exact hmono (h.reach hd ((hdir _ hd).1 hdd))
    · exact (hmono (h.reach hp hpd)).tail ⟨i, (hedge _ _ _).2 (Or.inr ⟨rfl, rfl, rfl⟩)⟩

/-- **Taking a leaf away.**  A node that names nothing, other than the root. -/
theorem erase (h : LabelledTree node dir root edge) {n : ν} (hn : n ≠ root)
    (hleaf : ∀ j x, ¬ edge n j x)
    (hnode : ∀ x, node' x ↔ node x ∧ x ≠ n) (hdir : ∀ x, node x → x ≠ n → (dir' x ↔ dir x))
    (hedge : ∀ d j c, edge' d j c ↔ edge d j c ∧ c ≠ n) : LabelledTree node' dir' root edge' := by
  -- a path that does not end in the leaf never meets it
  have hreach : ∀ {d}, Relation.ReflTransGen (fun d c => ∃ i, edge d i c) root d → d ≠ n →
      Relation.ReflTransGen (fun d c => ∃ i, edge' d i c) root d := by
    intro d hr
    induction hr with
    | refl => exact fun _ => .refl
    | tail _ he ih =>
      obtain ⟨j, he⟩ := he
      intro hc
      refine (ih ?_).tail ⟨j, (hedge _ _ _).2 ⟨he, hc⟩⟩
      rintro rfl
      exact hleaf _ _ he
  refine ⟨(hnode _).2 ⟨h.root_node, hn.symm⟩, (hdir _ h.root_node hn.symm).2 h.root_dir,
    fun {d _ _} he => ?_, fun he => ?_, fun he he' => ?_, fun hc hr => ?_, fun he he' => ?_,
    fun hd hdd => ?_⟩
  · obtain ⟨he, -⟩ := (hedge _ _ _).1 he
    obtain ⟨h1, h2⟩ := h.source he
    have hne : d ≠ n := by
      rintro rfl
      exact hleaf _ _ he
    exact ⟨(hnode _).2 ⟨h1, hne⟩, (hdir _ h1 hne).2 h2⟩
  · obtain ⟨he, hc⟩ := (hedge _ _ _).1 he
    obtain ⟨h1, h2⟩ := h.target he
    exact ⟨(hnode _).2 ⟨h1, hc⟩, h2⟩
  · exact h.functional ((hedge _ _ _).1 he).1 ((hedge _ _ _).1 he').1
  · obtain ⟨hc, hcn⟩ := (hnode _).1 hc
    obtain ⟨d, j, he⟩ := h.parent_exists hc hr
    exact ⟨d, j, (hedge _ _ _).2 ⟨he, hcn⟩⟩
  · exact h.parent_unique ((hedge _ _ _).1 he).1 ((hedge _ _ _).1 he').1
  · obtain ⟨hd, hdn⟩ := (hnode _).1 hd
    exact hreach (h.reach hd ((hdir _ hd hdn).1 hdd)) hdn

end LabelledTree

/-! ## Paths -/

/-- `Path edge d q c`: the labels `q` lead from `d` to `c`. -/
inductive LabelledTree.Path (edge : ν → ι → ν → Prop) (d : ν) : List ι → ν → Prop
  | nil : Path edge d [] d
  | snoc {q c i x} : Path edge d q c → edge c i x → Path edge d (q ++ [i]) x

namespace Arborescent

open LabelledTree

variable {node : ν → Prop} {root : ν} {edge : ν → ι → ν → Prop}

/-- A node is named by one path only. -/
theorem path_unique (h : Arborescent node root edge) {q q' : List ι} {c : ν}
    (hq : Path edge root q c) (hq' : Path edge root q' c) : q = q' := by
  induction hq generalizing q' with
  | nil =>
    cases hq' with
    | nil => rfl
    | snoc _ he => exact absurd rfl (h.target he).2
  | snoc _ he ih =>
    cases hq' with
    | nil => exact absurd rfl (h.target he).2
    | snoc hq' he' =>
      obtain ⟨rfl, rfl⟩ := h.parent_unique he he'
      rw [ih hq']

/-- A node at the end of a path is a node of the tree. -/
theorem node_of_path (h : Arborescent node root edge) {q : List ι} {c : ν}
    (hq : Path edge root q c) : node c := by
  cases hq with
  | nil => exact h.root_node
  | snoc _ he => exact (h.target he).1

/-- The first labels of a path are a path. -/
theorem path_take {q : List ι} {c : ν} (hq : Path edge root q c) (k : ℕ) :
    ∃ x, Path edge root (q.take k) x := by
  induction hq with
  | nil => exact ⟨root, by rw [List.take_nil]; exact .nil⟩
  | @snoc q c i x hq he ih =>
    by_cases hk : k ≤ q.length
    · rw [List.take_append_of_le_length hk]
      exact ih
    · rw [List.take_of_length_le (by rw [List.length_append, List.length_singleton]; omega)]
      exact ⟨x, hq.snoc he⟩

/-- A path is shorter than the number of nodes: it meets no node twice. -/
theorem length_lt_card (h : Arborescent node root edge) {N : Finset ν}
    (hN : ∀ x, node x → x ∈ N) {q : List ι} {c : ν} (hq : Path edge root q c) : q.length < N.card := by
  choose x hx using path_take hq
  have hinj : Set.InjOn x (Finset.range (q.length + 1)) := by
    intro k hk l hl hkl
    have htake := h.path_unique (hx k) (hkl ▸ hx l)
    have hlen := congrArg List.length htake
    rw [Finset.coe_range, Set.mem_Iio] at hk hl
    rw [List.length_take, List.length_take] at hlen
    omega
  have hle := Finset.card_le_card_of_injOn x (fun k _ => hN _ (h.node_of_path (hx k))) hinj
  rw [Finset.card_range] at hle
  omega

end Arborescent

namespace LabelledTree

variable {node dir : ν → Prop} {root : ν} {edge edge' : ν → ι → ν → Prop}

/-- A path names one node only. -/
theorem path_functional (h : LabelledTree node dir root edge) {q : List ι} {c c' : ν}
    (hq : Path edge root q c) (hq' : Path edge root q c') : c = c' := by
  induction hq generalizing c' with
  | nil =>
    generalize hnil : ([] : List ι) = q at hq'
    cases hq' with
    | nil => rfl
    | snoc => exact absurd hnil (by simp)
  | @snoc q c i x hq he ih =>
    generalize hsnoc : q ++ [i] = q₂ at hq'
    cases hq' with
    | nil => exact absurd hsnoc (by simp)
    | @snoc q₂ c₂ i₂ _ hq₂ he₂ =>
      obtain ⟨rfl, hi⟩ := List.append_inj' hsnoc rfl
      obtain rfl := List.singleton_inj.mp hi
      obtain rfl := ih hq₂
      exact h.functional he he₂

/-- **The paths after adding a leaf** are the old ones and the path to the leaf. -/
theorem path_insert (h : LabelledTree node dir root edge) {n p : ν} {i : ι} {q₀ : List ι}
    (hn : ¬ node n) (hp : Path edge root q₀ p)
    (hedge : ∀ d j c, edge' d j c ↔ edge d j c ∨ d = p ∧ j = i ∧ c = n) (q : List ι) (x : ν) :
    Path edge' root q x ↔ Path edge root q x ∨ q = q₀ ++ [i] ∧ x = n := by
  have hmono : ∀ {q x}, Path edge root q x → Path edge' root q x := by
    intro q x hq
    induction hq with
    | nil => exact .nil
    | snoc _ he ih => exact ih.snoc ((hedge _ _ _).2 (Or.inl he))
  constructor
  · intro hq
    induction hq with
    | nil => exact Or.inl .nil
    | snoc _ he ih =>
      rcases (hedge _ _ _).1 he with he | ⟨rfl, rfl, rfl⟩
      · rcases ih with hq | ⟨-, rfl⟩
        · exact Or.inl (hq.snoc he)
        · exact absurd (h.source he).1 hn
      · rcases ih with hq | ⟨-, rfl⟩
        · exact Or.inr ⟨by rw [h.arborescent.path_unique hq hp], rfl⟩
        · exact absurd (h.arborescent.node_of_path hp) hn
  · rintro (hq | ⟨rfl, rfl⟩)
    · exact hmono hq
    · exact (hmono hp).snoc ((hedge _ _ _).2 (Or.inr ⟨rfl, rfl, rfl⟩))

/-- **The paths after taking a leaf away** are those to other nodes. -/
theorem path_erase {n : ν} (hn : n ≠ root) (hleaf : ∀ j x, ¬ edge n j x)
    (hedge : ∀ d j c, edge' d j c ↔ edge d j c ∧ c ≠ n) (q : List ι) (x : ν) :
    Path edge' root q x ↔ Path edge root q x ∧ x ≠ n := by
  constructor
  · intro hq
    induction hq with
    | nil => exact ⟨.nil, hn.symm⟩
    | snoc _ he ih =>
      obtain ⟨he, hx⟩ := (hedge _ _ _).1 he
      exact ⟨ih.1.snoc he, hx⟩
  · rintro ⟨hq, hx⟩
    induction hq with
    | nil => exact .nil
    | snoc _ he ih =>
      refine (ih ?_).snoc ((hedge _ _ _).2 ⟨he, hx⟩)
      rintro rfl
      exact hleaf _ _ he

/-- The last label of a path is that of its last edge. -/
theorem path_snoc_iff {d x : ν} {q : List ι} {i : ι} :
    Path edge d (q ++ [i]) x ↔ ∃ c, Path edge d q c ∧ edge c i x := by
  constructor
  · intro h
    generalize hq : q ++ [i] = q' at h
    cases h with
    | nil => exact absurd hq (by simp)
    | @snoc q' c j _ hc he =>
      obtain ⟨rfl, hij⟩ := List.append_inj' hq rfl
      obtain rfl := List.singleton_inj.1 hij
      exact ⟨c, hc, he⟩
  · rintro ⟨c, hc, he⟩
    exact hc.snoc he

/-- A path goes on from where the first part of it leads. -/
theorem exists_path_of_append {d x : ν} {q q' : List ι} (h : Path edge d (q ++ q') x) :
    ∃ c, Path edge d q c := by
  induction q' using List.reverseRecOn generalizing x with
  | nil => exact ⟨x, by simpa using h⟩
  | append_singleton q' i ih =>
    rw [← List.append_assoc, path_snoc_iff] at h
    obtain ⟨c, hc, -⟩ := h
    exact ih hc

/-- A path leads to every node. -/
theorem exists_path (h : LabelledTree node dir root edge) {c : ν} (hc : node c) :
    ∃ q, Path edge root q c := by
  have hdirs : ∀ {d}, Relation.ReflTransGen (fun d c => ∃ i, edge d i c) root d →
      ∃ q, Path edge root q d := by
    intro d hd
    induction hd with
    | refl => exact ⟨[], .nil⟩
    | tail _ he ih =>
      obtain ⟨i, he⟩ := he
      obtain ⟨q, hq⟩ := ih
      exact ⟨q ++ [i], hq.snoc he⟩
  by_cases hroot : c = root
  · exact ⟨[], hroot ▸ .nil⟩
  · obtain ⟨d, i, he⟩ := h.parent_exists hc hroot
    obtain ⟨hd, hdd⟩ := h.source he
    obtain ⟨q, hq⟩ := hdirs (h.reach hd hdd)
    exact ⟨q ++ [i], hq.snoc he⟩

section Relabel

variable (h : LabelledTree node dir root edge) {p x : ν} {old new : ι} {P : List ι}
  (hP : Path edge root P p) (hold : edge p old x) (hnew : ∀ y, ¬ edge p new y)
include h hP

/-- No path goes through a label that is not in use. -/
theorem not_path_of_free (hnew : ∀ y, ¬ edge p new y) {t : List ι} {y : ν} :
    ¬ Path edge root (P ++ [new] ++ t) y := by
  intro hy
  obtain ⟨z, hz⟩ := exists_path_of_append hy
  obtain ⟨c, hc, he⟩ := path_snoc_iff.1 hz
  obtain rfl := h.path_functional hc hP
  exact hnew z he

variable (hedge : ∀ d j c, edge' d j c ↔ edge d j c ∧ ¬ (d = p ∧ j = old) ∨ d = p ∧ j = new ∧ c = x)
include hold hnew hedge

/-- **The paths after a label is changed**: what was at or below the old label is below the new
one, and what is not below the old label is where it was. -/
theorem path_relabel (q : List ι) (y : ν) : Path edge' root q y ↔
    (∃ t, q = P ++ [new] ++ t ∧ Path edge root (P ++ [old] ++ t) y) ∨
      ¬ P ++ [old] <+: q ∧ Path edge root q y := by
  have hunique : ∀ {q}, Path edge root q p → q = P := fun hq => h.arborescent.path_unique hq hP
  have hlong : ∀ {i : ι} {t : List ι}, P ++ [i] ++ t ≠ P := by
    intro i t heq
    have hlen := congrArg List.length heq
    simp at hlen
  constructor
  · intro hq
    induction hq with
    | nil => exact Or.inr ⟨by simp, .nil⟩
    | @snoc q c j y hq he ih =>
      rcases (hedge c j y).1 he with ⟨he, hne⟩ | ⟨rfl, rfl, rfl⟩
      · rcases ih with ⟨t, rfl, ht⟩ | ⟨hoff, hq⟩
        · refine Or.inl ⟨t ++ [j], by simp, ?_⟩
          rw [← List.append_assoc]
          exact ht.snoc he
        · refine Or.inr ⟨fun hpre => ?_, hq.snoc he⟩
          -- the first label below `P` would be the old one
          rcases List.prefix_concat_iff.1 hpre with heq | hpre
          · obtain ⟨rfl, hj⟩ := List.append_inj' heq rfl
            obtain rfl := List.singleton_inj.1 hj
            exact hne ⟨h.path_functional hq hP, rfl⟩
          · exact hoff hpre
      · rcases ih with ⟨t, rfl, ht⟩ | ⟨-, hq⟩
        · exact absurd (hunique ht) hlong
        · obtain rfl := hunique hq
          refine Or.inl ⟨[], by simp, ?_⟩
          rw [List.append_nil]
          exact hP.snoc hold
  · have hkept : ∀ {q y}, ¬ P ++ [old] <+: q → Path edge root q y → Path edge' root q y := by
      intro q y hoff hq
      induction hq with
      | nil => exact .nil
      | @snoc q c j y hq he ih =>
        refine (ih fun hpre => hoff (hpre.trans (List.prefix_append q [j]))).snoc
          ((hedge c j y).2 (Or.inl ⟨he, ?_⟩))
        rintro ⟨rfl, rfl⟩
        exact hoff (by rw [hunique hq])
    rintro (⟨t, rfl, ht⟩ | ⟨hoff, hq⟩)
    · induction t using List.reverseRecOn generalizing y with
      | nil =>
        rw [List.append_nil] at ht ⊢
        obtain ⟨c, hc, he⟩ := path_snoc_iff.1 ht
        obtain rfl := h.path_functional hc hP
        obtain rfl := h.functional hold he
        refine (hkept (fun hpre => ?_) hP).snoc ((hedge _ _ _).2 (Or.inr ⟨rfl, rfl, rfl⟩))
        have hlen := hpre.length_le
        rw [List.length_append, List.length_singleton] at hlen
        omega
      | append_singleton t j ih =>
        rw [← List.append_assoc] at ht ⊢
        obtain ⟨c, hc, he⟩ := path_snoc_iff.1 ht
        refine (ih c hc).snoc ((hedge c j y).2 (Or.inl ⟨he, ?_⟩))
        rintro ⟨rfl, -⟩
        exact hlong (hunique hc)
    · exact hkept hoff hq

end Relabel

/-! ## Maps from paths -/

section Maps

variable {α : Type*} [DecidableEq ι] {src dst q : List ι}

/-- What a map has at `src` and below is now at `dst` and below. -/
def move (M : List ι → Option α) (src dst : List ι) : List ι → Option α := fun q =>
  if dst <+: q then M (src ++ q.drop dst.length) else if src <+: q then none else M q

theorem move_below (M : List ι → Option α) (src dst t : List ι) : move M src dst (dst ++ t) = M (src ++ t) := by
  rw [move, if_pos (List.prefix_append dst t), List.drop_left]

theorem move_old (M : List ι → Option α) (hdst : ¬ dst <+: q) (hsrc : src <+: q) : move M src dst q = none := by
  rw [move, if_neg hdst, if_pos hsrc]

theorem move_other (M : List ι → Option α) (hdst : ¬ dst <+: q) (hsrc : ¬ src <+: q) :
    move M src dst q = M q := by
  rw [move, if_neg hdst, if_neg hsrc]

theorem move_map {β : Type*} (M : List ι → Option α) (f : α → β) (src dst q : List ι) :
    move (fun q => (M q).map f) src dst q = (move M src dst q).map f := by
  unfold move
  split_ifs <;> rfl

end Maps

end LabelledTree
