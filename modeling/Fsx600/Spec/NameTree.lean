import Fsx600.Spec.Naming
import Fsx600.Model.Calls
import Mathlib.Data.Set.Card

/-!
# The tree of names

What the directories are for: a `NameTree` says which inode each path names and whether it
is a directory, and knows nothing of blocks and slots.  `Agrees` ties it to a state: a path
of the model is a path of the `LabelledTree` whose labels are the names that the entries
hold.  A creation puts one path in and a removal takes one out.
-/

namespace Fsx600

open Function

/-- Which inode a path names, and whether that is a directory. -/
abbrev NameTree : Type := List Name → Option (ℕ × Bool)

namespace NameTree

/-- The root alone. -/
def root : NameTree := fun q => if q = [] then some (1, true) else none

/-- The path names a directory. -/
def IsDir (M : NameTree) (q : List Name) : Prop := ∃ i, M q = some (i, true)

/-- The path names a file. -/
def IsFile (M : NameTree) (q : List Name) : Prop := ∃ i, M q = some (i, false)

/-- The names in a directory. -/
def children (M : NameTree) (q : List Name) : Set Name := {t | ∃ x, M (q ++ [t]) = some x}

end NameTree

namespace FS

variable {g : Layout} {s s' : FS g} {c : Context} {M : NameTree}

/-- The directory `d` has an entry that holds the name `t` and names inode `i`. -/
def NameEdge (s : FS g) (d : ℕ) (t : Name) (i : ℕ) : Prop :=
  ∃ j, s.Edge d j i ∧ Name.Fits t ∧ (s.entry d j).Holds t

/-- No inode is named twice, whatever the names are. -/
theorem Wf.nameEdge_arborescent (hwf : Wf s) : Arborescent s.Node 1 s.NameEdge where
  root_node := hwf.tree.root_node
  target := fun he => by
    obtain ⟨j, he, -⟩ := he
    exact hwf.tree.target he
  parent_unique := fun he he' => by
    obtain ⟨j, he, ht, hh⟩ := he
    obtain ⟨k, he', ht', hh'⟩ := he'
    obtain ⟨rfl, rfl⟩ := hwf.tree.parent_unique he he'
    exact ⟨rfl, hh.unique hh' ht ht'⟩

/-- Names are labels as good as slots. -/
theorem Named.tree (hwf : Wf s) (hn : Named s) :
    LabelledTree s.Node (fun i => s.isDir i = true) 1 s.NameEdge where
  root_node := hwf.tree.root_node
  root_dir := hwf.tree.root_dir
  source := fun he => by
    obtain ⟨j, he, -⟩ := he
    exact hwf.tree.source he
  target := hwf.nameEdge_arborescent.target
  functional := fun he he' => by
    obtain ⟨j, he, ht, hh⟩ := he
    obtain ⟨k, he', -, hh'⟩ := he'
    obtain rfl := hn.distinct he he' ht hh hh'
    exact hwf.tree.functional he he'
  parent_exists := fun hc hr => by
    obtain ⟨d, j, he⟩ := hwf.tree.parent_exists hc hr
    obtain ⟨t, ht, hh⟩ := hn.holds he
    exact ⟨d, t, j, he, ht, hh⟩
  parent_unique := hwf.nameEdge_arborescent.parent_unique
  reach := fun hd hdd => by
    refine Relation.ReflTransGen.mono (fun d i hdi => ?_) _ _ (hwf.tree.reach hd hdd)
    obtain ⟨j, he⟩ := hdi
    obtain ⟨t, ht, hh⟩ := hn.holds he
    exact ⟨t, j, he, ht, hh⟩

/-! ## Walks are paths -/

/-- A lookup in a directory finds what the name names. -/
theorem Named.child_iff (hn : Named s) {d i : ℕ} {t : Name} (hd : s.AllocDir d) (ht : 0 ∉ t) :
    s.child d t = .inr i ↔ s.NameEdge d t i := by
  constructor
  · intro hc
    obtain ⟨j, hf, he⟩ := Wf.edge_of_child hd hc
    obtain ⟨hfits, hh⟩ := hn.held.holds_of_findEntry hd ht hf
    exact ⟨j, he, hfits, hh⟩
  · rintro ⟨j, he, hfits, hh⟩
    rw [child, hn.findEntry_eq he hfits hh]
    exact congrArg Sum.inr he.2.2.2

/-- A walk to a parent is a resolution that ends in a directory. -/
theorem Wf.walk_iff (hwf : Wf s) {d p : ℕ} {q : List Name} (hd : s.AllocDir d) :
    s.walk d q = .inr p ↔ s.resolve d q = .inr p ∧ s.AllocDir p := by
  refine ⟨fun h => ⟨resolve_of_walk h, hwf.allocDir_of_walk hd h⟩, ?_⟩
  induction q generalizing d with
  | nil => exact And.left
  | cons t q ih =>
    rw [walk, resolve]
    cases hf : findEntry (s.dirBlock d) t with
    | none => simp
    | some j =>
      have he := edge_of_findEntry hd hf
      have hisDir := hwf.edge_isDir he
      dsimp only
      by_cases hj : (s.entry d j).isDir = true
      · rw [if_pos hj, if_neg (by simp [hj])]
        exact ih ⟨(hwf.edge_child he).1, hisDir.symm.trans hj⟩
      · rintro ⟨h, hp⟩
        split at h
        · exact absurd h (by simp)
        · next hq =>
          -- the last component, so the file itself
          obtain rfl : q = [] := by
            by_contra hne
            exact hq (by simp [hj, hne])
          obtain rfl := Sum.inr.inj h
          exact absurd (hisDir.trans hp.2) hj

/-- The path `d/n` ends in the name `n` of the directory `d`. -/
theorem Wf.parent_slash (hwf : Wf s) {path : Path} {p : ℕ} {n : Name} (hn : Name.IsComponent n)
    (hr : s.resolve 1 path.tokens = .inr p) (hdir : s.isDir p = true) :
    s.Parent (path.slash n hn.nul) p n where
  walk := by
    rw [path.tokens_slash hn, List.dropLast_concat]
    exact (hwf.walk_iff hwf.allocDir_one).2 ⟨hr, hwf.alloc_of_resolve hr, hdir⟩
  last := by rw [path.tokens_slash hn, List.getLast?_concat]

/-- **Resolution follows the paths.** -/
theorem Named.resolve_iff (hwf : Wf s) (hn : Named s) {q : List Name} {i : ℕ}
    (hq : ∀ t ∈ q, 0 ∉ t) : s.resolve 1 q = .inr i ↔ LabelledTree.Path s.NameEdge 1 q i := by
  induction q using List.reverseRecOn generalizing i with
  | nil =>
    rw [resolve]
    constructor
    · intro h
      obtain rfl := Sum.inr.inj h
      exact .nil
    · intro h
      rw [(hn.tree hwf).path_functional h .nil]
  | append_singleton q t ih =>
    have ht : 0 ∉ t := hq t (by simp)
    have hq' : ∀ u ∈ q, 0 ∉ u := fun u hu => hq u (by simp [hu])
    rw [resolve_append]
    constructor
    · intro h
      cases hw : s.walk 1 q with
      | inl e => simp [hw] at h
      | inr p =>
        rw [hw, Sum.elim_inr] at h
        obtain ⟨hr, hp⟩ := (hwf.walk_iff hwf.allocDir_one).1 hw
        exact ((ih hq').1 hr).snoc ((hn.child_iff hp ht).1 h)
    · intro h
      generalize hsnoc : q ++ [t] = q₂ at h
      cases h with
      | nil => exact absurd hsnoc (by simp)
      | @snoc q₂ p t₂ _ hp he =>
        obtain ⟨rfl, ht₂⟩ := List.append_inj' hsnoc rfl
        obtain rfl := List.singleton_inj.mp ht₂
        have hdir : s.AllocDir p := by
          obtain ⟨j, he, -⟩ := he
          exact he.1
        rw [(hwf.walk_iff hwf.allocDir_one).2 ⟨(ih hq').2 hp, hdir⟩, Sum.elim_inr]
        exact (hn.child_iff hdir ht).2 he

/-- The components of a path that resolves are names of entries. -/
theorem Named.fits_of_resolve (hwf : Wf s) (hn : Named s) {path : Path} {i : ℕ}
    (hr : s.resolve 1 path.tokens = .inr i) : ∀ t ∈ path.tokens, Name.Fits t := by
  have hp := (hn.resolve_iff hwf fun _ ht => path.nul_notMem_of_mem_tokens ht).1 hr
  clear hr
  generalize path.tokens = q at hp
  induction hp with
  | nil => simp
  | snoc _ he ih =>
    intro t ht
    obtain ⟨j, -, hfits, -⟩ := he
    rcases List.mem_append.mp ht with ht | ht
    · exact ih t ht
    · exact List.mem_singleton.mp ht ▸ hfits

theorem Named.small_slash (hwf : Wf s) (hn : Named s) {path : Path} {p : ℕ} {n : Name}
    (hr : s.resolve 1 path.tokens = .inr p) (hc : Name.IsComponent n) (hlen : n.length ≤ 25) :
    (path.slash n hc.nul).Small := by
  have hle := hwf.length_le hr
  rw [Path.Small, path.tokens_slash hc]
  refine ⟨by rw [List.length_append, List.length_singleton]; omega, fun t ht => ?_⟩
  rcases List.mem_append.mp ht with ht | ht
  · exact (hn.fits_of_resolve hwf hr t ht).length_le
  · exact List.mem_singleton.mp ht ▸ hlen

/-! ## Agreement -/

/-- The paths of the model are the paths of the directories. -/
def Agrees (s : FS g) (M : NameTree) : Prop := ∀ q i b,
  M q = some (i, b) ↔ LabelledTree.Path s.NameEdge 1 q i ∧ s.isDir i = b

theorem Agrees.eq_none (h : Agrees s M) {q : List Name} :
    M q = none ↔ ∀ i, ¬ LabelledTree.Path s.NameEdge 1 q i := by
  constructor
  · intro hnone i hp
    exact absurd (hnone.symm.trans ((h q i _).2 ⟨hp, rfl⟩)) (by simp)
  · intro hno
    cases hq : M q with
    | none => rfl
    | some x => exact absurd ((h q x.1 x.2).1 hq).1 (hno x.1)

/-- A directory of the model is what a walk leads to. -/
theorem Agrees.walk (hwf : Wf s) (hn : Named s) (h : Agrees s M) {q : List Name} {p : ℕ}
    (hq : ∀ t ∈ q, 0 ∉ t) (hp : M q = some (p, true)) : s.walk 1 q = .inr p := by
  obtain ⟨hpath, hdir⟩ := (h q p true).1 hp
  exact (hwf.walk_iff hwf.allocDir_one).2
    ⟨(hn.resolve_iff hwf hq).2 hpath, ((hn.tree hwf).arborescent.node_of_path hpath).1, hdir⟩

theorem Agrees.of_resolve (hwf : Wf s) (hn : Named s) (h : Agrees s M) {path : Path} {i : ℕ}
    (hr : s.resolve 1 path.tokens = .inr i) : M path.tokens = some (i, s.isDir i) :=
  (h _ _ _).2 ⟨(hn.resolve_iff hwf fun _ ht => path.nul_notMem_of_mem_tokens ht).1 hr, rfl⟩

theorem Agrees.of_resolve_error (hwf : Wf s) (hn : Named s) (h : Agrees s M) {path : Path} {e : ℤ}
    (hr : s.resolve 1 path.tokens = .inl e) : M path.tokens = none := by
  refine h.eq_none.2 fun i hp => ?_
  rw [(hn.resolve_iff hwf fun _ ht => path.nul_notMem_of_mem_tokens ht).2 hp] at hr
  exact absurd hr (by simp)

/-- The parent of a path is a directory of the model. -/
theorem Agrees.of_parent (hwf : Wf s) (hn : Named s) (h : Agrees s M) {path : Path} {p : ℕ}
    {last : Name} (hp : s.Parent path p last) : M path.tokens.dropLast = some (p, true) := by
  obtain ⟨hr, hdir⟩ := (hwf.walk_iff hwf.allocDir_one).1 hp.walk
  exact (h _ _ _).2 ⟨(hn.resolve_iff hwf fun t ht =>
    path.nul_notMem_of_mem_tokens (List.mem_of_mem_dropLast ht)).1 hr, hdir.2⟩

/-- What the directories say decides which model agrees. -/
theorem Agrees.congr (h : Agrees s M) (hedge : ∀ d t i, s'.NameEdge d t i ↔ s.NameEdge d t i)
    (hdir : s'.isDir = s.isDir) : Agrees s' M := by
  have hsame : s'.NameEdge = s.NameEdge := by
    funext d t i
    exact propext (hedge d t i)
  intro q i b
  rw [hsame, hdir]
  exact h q i b

theorem Agrees.writeInodeMap (hwf : Wf s) (h : Agrees s M) : Agrees s.writeInodeMap M := by
  have hblock : ∀ d, s.AllocDir d → s.writeInodeMap.dirBlock d = s.dirBlock d :=
    fun d hd => disk_writeInodeMap s (hwf.dirBlock_inUse hd).1
  have hrel : Relabelled s s.writeInodeMap :=
    hwf.relabelled_of_dirBlock rfl (fun _ _ => rfl) hblock
  refine h.congr (fun d t i => ?_) rfl
  refine exists_congr fun j => ?_
  rw [hrel.edge]
  refine and_congr_right fun he => ?_
  rw [entry, hblock d he.1, entry]

/-! ## Creating and removing -/

section Created

variable {mode : UInt32} {p j n : ℕ} {name : Name} {fresh : Option ℕ}

theorem Created.nameEdge_iff (hwf : Wf s) (h : Created c mode p j n name fresh s s') (d : ℕ) (t : Name)
    (i : ℕ) : s'.NameEdge d t i ↔ s.NameEdge d t i ∨ d = p ∧ t = name ∧ i = n := by
  have hnew : (s'.entry p j).Holds name := by
    rw [h.entry hwf h.parent, if_pos ⟨rfl, rfl⟩]
    exact newDirent_holds mode n
  have hold : ∀ {d k i}, s.Edge d k i → s'.entry d k = s.entry d k := fun {d k i} he => by
    rw [h.entry hwf he.1, if_neg]
    rintro ⟨rfl, rfl⟩
    exact Bool.false_ne_true (h.slot_free.symm.trans he.2.2.1)
  constructor
  · rintro ⟨k, he, ht, hh⟩
    rcases (h.edge_iff hwf d k i).1 he with he | ⟨rfl, rfl, rfl⟩
    · rw [hold he] at hh
      exact Or.inl ⟨k, he, ht, hh⟩
    · exact Or.inr ⟨rfl, hh.unique hnew ht h.fits, rfl⟩
  · rintro (⟨k, he, ht, hh⟩ | ⟨rfl, rfl, rfl⟩)
    · exact ⟨k, (h.edge_iff hwf d k i).2 (Or.inl he), ht, (hold he).symm ▸ hh⟩
    · exact ⟨j, (h.edge_iff hwf _ _ _).2 (Or.inr ⟨rfl, rfl, rfl⟩), h.fits, hnew⟩

/-- **Creating** adds the path. -/
theorem Agrees.created (hwf : Wf s) (hn : Named s) (h : Agrees s M) {path : Path}
    (hp : s.Parent path p name) (hc : Created c mode p j n name fresh s s') :
    Agrees s' (update M path.tokens (some (n, sIsDir mode))) := by
  have hpath := ((h _ _ _).1 (h.of_parent hwf hn hp)).1
  have hnode : ¬ s.Node n := fun hnode => hc.ne_of_alloc hnode.1 rfl
  intro q i b
  rw [(hn.tree hwf).path_insert hnode hpath (fun d t i => hc.nameEdge_iff hwf d t i) q i, ← hp.tokens]
  by_cases hq : q = path.tokens
  · subst hq
    have hnone : ∀ i, ¬ LabelledTree.Path s.NameEdge 1 path.tokens i :=
      h.eq_none.1 (h.of_resolve_error hwf hn (hp.resolve.trans hc.missing))
    rw [update_self, Option.some.injEq, Prod.mk.injEq]
    constructor
    · rintro ⟨rfl, rfl⟩
      exact ⟨Or.inr ⟨rfl, rfl⟩, hc.isDir_self⟩
    · rintro ⟨hi | ⟨-, rfl⟩, rfl⟩
      · exact absurd hi (hnone i)
      · exact ⟨rfl, hc.isDir_self.symm⟩
  · rw [update_of_ne hq, h]
    constructor
    · rintro ⟨hi, rfl⟩
      exact ⟨Or.inl hi, hc.isDir_of_ne (hc.ne_of_alloc ((hn.tree hwf).arborescent.node_of_path hi).1)⟩
    · rintro ⟨hi | ⟨rfl, -⟩, rfl⟩
      · exact ⟨hi, (hc.isDir_of_ne (hc.ne_of_alloc ((hn.tree hwf).arborescent.node_of_path hi).1)).symm⟩
      · exact absurd rfl hq

end Created

section Removed

variable {p j i : ℕ} {e : Dirent}

theorem Removed.nameEdge_iff (hwf : Wf s) (h : Removed p j i e s s') (d : ℕ) (t : Name) (x : ℕ) :
    s'.NameEdge d t x ↔ s.NameEdge d t x ∧ x ≠ i := by
  have hold : ∀ {d k x}, s.Edge d k x → x ≠ i → s'.entry d k = s.entry d k := fun {d k x} he hx => by
    have hd := ((h.edge_iff hwf d k x).2 ⟨he, hx⟩).1
    rw [h.entry hwf he.1 ((h.allocDir_iff d).1 hd).2, if_neg]
    rintro ⟨rfl, rfl⟩
    exact hx (he.2.2.2.symm.trans h.edge.2.2.2)
  constructor
  · rintro ⟨k, he, ht, hh⟩
    obtain ⟨he, hx⟩ := (h.edge_iff hwf d k x).1 he
    rw [hold he hx] at hh
    exact ⟨⟨k, he, ht, hh⟩, hx⟩
  · rintro ⟨⟨k, he, ht, hh⟩, hx⟩
    exact ⟨k, (h.edge_iff hwf d k x).2 ⟨he, hx⟩, ht, (hold he hx).symm ▸ hh⟩

/-- **Removing** takes the path away. -/
theorem Agrees.removed (hwf : Wf s) (hn : Named s) (h : Agrees s M) {path : Path}
    (hr : s.resolve 1 path.tokens = .inr i) (hrem : Removed p j i e s s') :
    Agrees s' (update M path.tokens none) := by
  have hi2 := hrem.two_le hwf
  have hleaf : ∀ t x, ¬ s.NameEdge i t x := by
    rintro t x ⟨k, he, -⟩
    exact hrem.not_edge k x he
  have hpath := ((h _ _ _).1 (h.of_resolve hwf hn hr)).1
  intro q x b
  rw [LabelledTree.path_erase (by omega) hleaf (fun d t x => hrem.nameEdge_iff hwf d t x) q x]
  by_cases hq : q = path.tokens
  · subst hq
    rw [update_self]
    constructor
    · intro hx
      exact absurd hx (by simp)
    · rintro ⟨⟨hx, hxi⟩, -⟩
      exact absurd ((hn.tree hwf).path_functional hx hpath) hxi
  · rw [update_of_ne hq, h]
    constructor
    · rintro ⟨hx, rfl⟩
      have hxi : x ≠ i := by
        rintro rfl
        exact hq ((hn.tree hwf).arborescent.path_unique hx hpath)
      exact ⟨⟨hx, hxi⟩, hrem.isDir_of_ne hxi⟩
    · rintro ⟨⟨hx, hxi⟩, rfl⟩
      exact ⟨hx, (hrem.isDir_of_ne hxi).symm⟩

end Removed

/-! ## Counting children -/

theorem Agrees.mem_children (hwf : Wf s) (hn : Named s) (h : Agrees s M) {q : List Name} {p : ℕ}
    (hp : M q = some (p, true)) {t : Name} : t ∈ M.children q ↔ ∃ i, s.NameEdge p t i := by
  have hpath := ((h _ _ _).1 hp).1
  constructor
  · rintro ⟨⟨i, b⟩, hi⟩
    obtain ⟨hi, -⟩ := (h _ _ _).1 hi
    generalize hsnoc : q ++ [t] = q₂ at hi
    cases hi with
    | nil => exact absurd hsnoc (by simp)
    | @snoc q₂ p₂ t₂ _ hp₂ he =>
      obtain ⟨rfl, ht₂⟩ := List.append_inj' hsnoc rfl
      obtain rfl := List.singleton_inj.mp ht₂
      obtain rfl := (hn.tree hwf).path_functional hpath hp₂
      exact ⟨i, he⟩
  · rintro ⟨i, he⟩
    exact ⟨(i, _), (h _ _ _).2 ⟨hpath.snoc he, rfl⟩⟩

/-- The valid slots of a directory. -/
def validSlots (s : FS g) (d : ℕ) : Finset ℕ :=
  (Finset.range 32).filter fun j => (s.entry d j).valid = true

theorem mem_validSlots {d j : ℕ} : j ∈ s.validSlots d ↔ j < 32 ∧ (s.entry d j).valid = true := by
  rw [validSlots, Finset.mem_filter, Finset.mem_range]

/-- A directory of the model has as many children as its block has valid slots. -/
theorem Agrees.ncard_children (hwf : Wf s) (hn : Named s) (h : Agrees s M) {q : List Name} {p : ℕ}
    (hp : M q = some (p, true)) : (M.children q).ncard = (s.validSlots p).card := by
  obtain ⟨hpath, hpd⟩ := (h _ _ _).1 hp
  have hdir : s.AllocDir p := ⟨((hn.tree hwf).arborescent.node_of_path hpath).1, hpd⟩
  have hcname : ∀ {j i t}, s.Edge p j i → Name.Fits t → (s.entry p j).Holds t →
      (s.entry p j).cname = t := fun _ ht hh => by
    have := ht.length_le
    exact Dirent.cname_of_holds hh ht.nul (by omega)
  have himage : M.children q = (s.validSlots p).image fun j => (s.entry p j).cname := by
    ext t
    rw [h.mem_children hwf hn hp, Finset.coe_image, Set.mem_image]
    constructor
    · rintro ⟨i, j, he, ht, hh⟩
      exact ⟨j, mem_validSlots.2 ⟨he.2.1, he.2.2.1⟩, hcname he ht hh⟩
    · rintro ⟨j, hj, rfl⟩
      obtain ⟨hj, hv⟩ := mem_validSlots.1 hj
      have he : s.Edge p j _ := ⟨hdir, hj, hv, rfl⟩
      obtain ⟨t, ht, hh⟩ := hn.holds he
      rw [hcname he ht hh]
      exact ⟨_, j, he, ht, hh⟩
  rw [himage, Set.ncard_coe_finset, Finset.card_image_of_injOn]
  intro j hj k hk heq
  obtain ⟨hj, hv⟩ := mem_validSlots.1 hj
  obtain ⟨hk, hv'⟩ := mem_validSlots.1 hk
  have he : s.Edge p j _ := ⟨hdir, hj, hv, rfl⟩
  have he' : s.Edge p k _ := ⟨hdir, hk, hv', rfl⟩
  obtain ⟨t, ht, hh⟩ := hn.holds he
  obtain ⟨u, hu, hh'⟩ := hn.holds he'
  dsimp only at heq
  rw [hcname he ht hh, hcname he' hu hh'] at heq
  exact hn.distinct he he' ht hh (heq ▸ hh')

end FS

/-- On a new image there is the root alone. -/
theorem Mkfs.agrees_fresh {n : ℕ} (h : Formattable n) (t : UInt32) :
    (fresh h t).Agrees NameTree.root := by
  have hpath : ∀ q i, LabelledTree.Path (fresh h t).NameEdge 1 q i ↔ q = [] ∧ i = 1 := by
    intro q i
    constructor
    · intro hq
      cases hq with
      | nil => exact ⟨rfl, rfl⟩
      | snoc _ he =>
        obtain ⟨j, he, -⟩ := he
        exact absurd he (not_edge_fresh h t)
    · rintro ⟨rfl, rfl⟩
      exact .nil
  intro q i b
  rw [hpath, isDir_fresh, NameTree.root]
  split
  · next hq =>
    subst hq
    rw [Option.some.injEq, Prod.mk.injEq]
    constructor
    · rintro ⟨rfl, rfl⟩
      exact ⟨⟨rfl, rfl⟩, rfl⟩
    · rintro ⟨⟨-, rfl⟩, rfl⟩
      exact ⟨rfl, rfl⟩
  · next hq =>
    constructor
    · intro h
      exact absurd h (by simp)
    · rintro ⟨⟨hq', -⟩, -⟩
      exact absurd hq' hq

end Fsx600
