import Mathlib.Data.List.Nodup
import Mathlib.Data.List.Pairwise
import Mathlib.Data.List.ProdSigma
import Mathlib.Data.List.Perm.Subperm
import Mathlib.Logic.Relation
import Mathlib.Tactic.Common

/-!
# Searching a graph with a work list

A node leads to others through its slots, and nodes carry keys.  The search keeps one
list: it starts as the root alone, and visiting the node at the tail appends the nodes
its slots lead to.  It gives up as soon as a key would stand in the list twice.

`Traversal` is the search as a relation on the list and the tail.  The invariant that
carries it is `Traversal.eq_flatMap`: the list is the root followed by what the visited
nodes lead to.  So a search that has visited all of its list has found exactly what can
be reached (`Traversal.mem_iff`), and a key met twice is what makes it give up
(`Traversal.not_metTwice`, `Traversal.metTwice`).
-/

namespace WorkList

variable {ν ι κ : Type*} (child : ν → ι → Option ν) (slots : List ι) (key : ν → κ) (root : ν)

/-- The nodes that `x` leads to, in the order of the slots. -/
def children (x : ν) : List ν := slots.filterMap (child x)

/-- The nodes that the root leads to, through any number of others. -/
def Reachable : ν → Prop := Relation.ReflTransGen (fun x y => y ∈ children child slots x) root

/-- A place is a node and a slot of it.  The search meets `k` at a place when it can get
there and the slot leads to a node with key `k`. -/
def Meets (p : ν × ι) (k : κ) : Prop :=
  Reachable child slots root p.1 ∧ p.2 ∈ slots ∧ ∃ y ∈ child p.1 p.2, key y = k

/-- Some key is met a second time; that of the root is met at the start. -/
def MetTwice : Prop :=
  (∃ p, Meets child slots key root p (key root)) ∨
    ∃ p p' k, p ≠ p' ∧ Meets child slots key root p k ∧ Meets child slots key root p' k

/-- The list and the tail of a search under way. -/
inductive Traversal : List ν → ℕ → Prop
  | start : Traversal [root] 0
  | visit {q : List ν} {t : ℕ} (ht : t < q.length) :
    Traversal q t → ((q ++ children child slots q[t]).map key).Nodup →
      Traversal (q ++ children child slots q[t]) (t + 1)

variable {child slots key root}

/-- What a list of nodes leads to, place by place. -/
theorem flatMap_children (q : List ν) :
    q.flatMap (children child slots) = (q ×ˢ slots).filterMap fun p => child p.1 p.2 := by
  induction q with
  | nil => rfl
  | cons x q ih =>
    rw [List.flatMap_cons, List.product_cons, List.filterMap_append, ih, List.filterMap_map]
    rfl

/-- The root and what distinct nodes lead to carry distinct keys exactly when no place leads to
the key of the root and no two places lead to the same key. -/
theorem nodup_iff {q : List ν} (hq : q.Nodup) (hs : slots.Nodup) :
    ((root :: q.flatMap (children child slots)).map key).Nodup ↔
      (∀ p ∈ q ×ˢ slots, ∀ y ∈ child p.1 p.2, key y ≠ key root) ∧
        ∀ p ∈ q ×ˢ slots, ∀ p' ∈ q ×ˢ slots, p ≠ p' →
          ∀ y ∈ child p.1 p.2, ∀ y' ∈ child p'.1 p'.2, key y ≠ key y' := by
  rw [flatMap_children, List.map_cons, List.nodup_cons]
  refine and_congr ?_ ?_
  · simp only [List.mem_map, List.mem_filterMap, not_exists, not_and]
    constructor
    · intro h p hp y hy hk
      exact h y ⟨p, hp, hy⟩ hk
    · rintro h y ⟨p, hp, hy⟩ hk
      exact h p hp y hy hk
  · rw [List.Nodup, List.pairwise_map, List.pairwise_filterMap]
    constructor
    · intro h p hp p' hp' hne
      have hsymm : Std.Symm fun a b : ν × ι =>
          ∀ y, child a.1 a.2 = some y → ∀ y', child b.1 b.2 = some y' → key y ≠ key y' :=
        ⟨fun a b hab y hy y' hy' hk => hab y' hy' y hy hk.symm⟩
      exact h.forall hp hp' hne
    · intro h
      exact (hq.product hs).pairwise_of_forall_ne h

/-- A list without a key twice is no longer than the keys there are. -/
theorem length_le {q : List ν} {U : List κ} (hq : (q.map key).Nodup) (hU : ∀ x ∈ q, key x ∈ U) :
    q.length ≤ U.length := by
  have hsub : q.map key ⊆ U := by
    intro k hk
    obtain ⟨x, hx, rfl⟩ := List.mem_map.mp hk
    exact hU x hx
  have hle := (hq.subperm hsub).length_le
  rwa [List.length_map] at hle

/-- What a longer part of the list leads to. -/
theorem flatMap_take_succ {q : List ν} {t : ℕ} (ht : t < q.length) :
    (q.take (t + 1)).flatMap (children child slots) =
      (q.take t).flatMap (children child slots) ++ children child slots q[t] := by
  rw [List.take_add_one, List.getElem?_eq_getElem ht, Option.toList_some, List.flatMap_append,
    List.flatMap_singleton]

/-- Two graphs that agree on the nodes with a property, which the root has and every step keeps:
what can be reached in the one can be reached in the other, and has the property. -/
theorem reachable_congr {child' : ν → ι → Option ν} {P : ν → Prop} (h0 : P root)
    (hsame : ∀ x, P x → children child' slots x = children child slots x)
    (hstep : ∀ x y, P x → y ∈ children child slots x → P y) {x : ν}
    (h : Reachable child' slots root x) : Reachable child slots root x ∧ P x := by
  induction h with
  | refl => exact ⟨Relation.ReflTransGen.refl, h0⟩
  | @tail y z _ hz ih =>
    rw [hsame y ih.2] at hz
    exact ⟨ih.1.tail hz, hstep y z ih.2 hz⟩

namespace Traversal

variable {q : List ν} {t : ℕ}

theorem le_length (h : Traversal child slots key root q t) : t ≤ q.length := by
  cases h with
  | start => exact Nat.zero_le _
  | visit ht =>
    rw [List.length_append]
    omega

theorem nodup_key (h : Traversal child slots key root q t) : (q.map key).Nodup := by
  cases h with
  | start => exact List.nodup_singleton _
  | visit _ _ hn => exact hn

theorem nodup (h : Traversal child slots key root q t) : q.Nodup := h.nodup_key.of_map key

/-- The list is the root followed by what the visited nodes lead to. -/
theorem eq_flatMap (h : Traversal child slots key root q t) :
    q = root :: (q.take t).flatMap (children child slots) := by
  induction h with
  | start => rfl
  | @visit q t ht h _ ih =>
    rw [List.take_append_of_le_length ht, flatMap_take_succ ht, ← List.cons_append, ← ih]

/-- Visiting one node more. -/
theorem append_children (h : Traversal child slots key root q t) (ht : t < q.length) :
    q ++ children child slots q[t] = root :: (q.take (t + 1)).flatMap (children child slots) := by
  rw [flatMap_take_succ ht, ← List.cons_append, ← h.eq_flatMap]

theorem reachable (h : Traversal child slots key root q t) {x : ν} (hx : x ∈ q) :
    Reachable child slots root x := by
  induction h generalizing x with
  | start =>
    rw [List.mem_singleton] at hx
    subst hx
    exact Relation.ReflTransGen.refl
  | visit ht _ _ ih =>
    rcases List.mem_append.mp hx with hx | hx
    · exact ih hx
    · exact (ih (List.getElem_mem ht)).tail hx

/-- A search that has visited all of its list has found what can be reached. -/
theorem mem_iff (h : Traversal child slots key root q q.length) {x : ν} :
    x ∈ q ↔ Reachable child slots root x := by
  refine ⟨h.reachable, fun hx => ?_⟩
  have heq := h.eq_flatMap
  rw [List.take_length] at heq
  induction hx with
  | refl =>
    rw [heq]
    exact List.mem_cons_self
  | tail _ hy ih =>
    rw [heq]
    exact List.mem_cons_of_mem _ (List.mem_flatMap.mpr ⟨_, ih, hy⟩)

/-- A search that has visited all of its list met no key twice. -/
theorem not_metTwice (h : Traversal child slots key root q q.length) (hs : slots.Nodup) :
    ¬MetTwice child slots key root := by
  have heq := h.eq_flatMap
  rw [List.take_length] at heq
  have hn := h.nodup_key
  rw [heq, nodup_iff h.nodup hs] at hn
  have hplace : ∀ {p : ν × ι} {k : κ}, Meets child slots key root p k → p ∈ q ×ˢ slots := by
    intro p k hp
    exact List.mem_product.mpr ⟨h.mem_iff.mpr hp.1, hp.2.1⟩
  rintro (⟨p, hp⟩ | ⟨p, p', k, hne, hp, hp'⟩)
  · obtain ⟨y, hy, hk⟩ := hp.2.2
    exact hn.1 p (hplace hp) y hy hk
  · obtain ⟨y, hy, hk⟩ := hp.2.2
    obtain ⟨y', hy', hk'⟩ := hp'.2.2
    exact hn.2 p (hplace hp) p' (hplace hp') hne y hy y' hy' (hk.trans hk'.symm)

/-- A search that has to give up has met a key twice. -/
theorem metTwice (h : Traversal child slots key root q t) (ht : t < q.length) (hs : slots.Nodup)
    (hn : ¬((q ++ children child slots q[t]).map key).Nodup) : MetTwice child slots key root := by
  have hmem : ∀ {p : ν × ι}, p ∈ q.take (t + 1) ×ˢ slots →
      Reachable child slots root p.1 ∧ p.2 ∈ slots := by
    intro p hp
    obtain ⟨hp₁, hp₂⟩ := List.mem_product.mp hp
    exact ⟨h.reachable (List.mem_of_mem_take hp₁), hp₂⟩
  by_contra hno
  refine hn ?_
  rw [h.append_children ht, nodup_iff (h.nodup.sublist (List.take_sublist _ _)) hs]
  constructor
  · intro p hp y hy hk
    obtain ⟨hr, hi⟩ := hmem hp
    exact hno (.inl ⟨p, hr, hi, y, hy, hk⟩)
  · intro p hp p' hp' hne y hy y' hy' hk
    obtain ⟨hr, hi⟩ := hmem hp
    obtain ⟨hr', hi'⟩ := hmem hp'
    exact hno (.inr ⟨p, p', key y, hne, ⟨hr, hi, y, hy, rfl⟩, ⟨hr', hi', y', hy', hk.symm⟩⟩)

end Traversal

end WorkList
