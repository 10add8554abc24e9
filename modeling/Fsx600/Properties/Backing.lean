import Fsx600.Properties.Refinement
import Fsx600.Properties.Renaming
import Fsx600.Spec.Objects

/-!
# A state that backs a store

A state backs a store if every path leads to the object of the inode that it resolves to.  The tree
of names is the link between the two: it has the inodes, and `Represents` ties it to the
directories.

What the store says of a path, an error or an object, is then what the walk through the
directories finds; and its limits on the number of objects and of children are those of the inode
map and of the slots.
-/

namespace Fsx600

open Checked Function

namespace FS

variable {g : Layout} {s t : FS g} {c : Context} {path : Path} {p i : ℕ} {last : Name} {q : List Name}
  {N : NameTree} {M : Store}

/-- Every path leads to the object of its inode. -/
structure Backs (s : FS g) (N : NameTree) (M : Store) : Prop extends Represents s N where
  objects : ∀ q, M q = (N q).map fun x => s.object x.1
  exact : ∀ i, s.inodeMap i = true → s.isDir i = false → s.Exact i

/-! ## Changes that the tree of names does not see -/

/-- The directories are as they were. -/
theorem Represents.of_dirBlock (h : Represents s N) (hwf : Wf t) (hmap : t.inodeMap = s.inodeMap)
    (hdir : ∀ k, t.isDir k = s.isDir k) (hblock : ∀ d, s.AllocDir d → t.dirBlock d = s.dirBlock d) :
    Represents t N := by
  have hrel : Relabelled s t := h.toWf.relabelled_of_dirBlock hmap (fun k _ => hdir k) hblock
  have hentry : ∀ d j, s.AllocDir d → t.entry d j = s.entry d j := fun d j hd => by
    rw [entry, hblock d hd, entry]
  have hedge : ∀ d j i, t.Edge d j i → s.Edge d j i := fun d j i => (hrel.edge d j i).1
  refine ⟨⟨hwf, h.inodes_ge⟩, h.named.congr hedge fun d j i he => hentry d j (hedge d j i he).1,
    h.agrees.congr (fun d t i => ?_) (funext hdir)⟩
  refine exists_congr fun j => ?_
  rw [hrel.edge]
  refine and_congr_right fun he => ?_
  rw [hentry d j he.1]

section Renamed

variable {j : ℕ} {old new : Name} (hwf : Wf s) (hn : Named s) (hold : 0 ∉ old)
  (hj : findEntry (s.dirBlock p) old = some j) (hstored : overwrite old new = new)
  (h : Renamed c p j i new s t)
include hwf hn hold hj hstored h

/-- A rename changes one label. -/
theorem Renamed.nameEdge_iff (d : ℕ) (u : Name) (x : ℕ) : t.NameEdge d u x ↔
    s.NameEdge d u x ∧ ¬ (d = p ∧ u = old) ∨ d = p ∧ u = new ∧ x = i := by
  obtain ⟨hfits, hh⟩ := hn.held.holds_of_findEntry h.edge.1 hold hj
  obtain ⟨hfits', hh'⟩ := h.holds hwf hn.held hold hj
  rw [hstored] at hfits' hh'
  have hedge := fun k => (h.relabelled hwf).edge d k x
  constructor
  · rintro ⟨k, he, hu, hk⟩
    have he := (hedge k).1 he
    by_cases hdk : d = p ∧ k = j
    · obtain ⟨rfl, rfl⟩ := hdk
      exact Or.inr ⟨rfl, hk.unique hh' hu hfits', he.2.2.2.symm.trans h.edge.2.2.2⟩
    · rw [h.entry hwf he.1, if_neg hdk] at hk
      refine Or.inl ⟨⟨k, he, hu, hk⟩, ?_⟩
      rintro ⟨rfl, rfl⟩
      exact hdk ⟨rfl, hn.distinct he h.edge hu hk hh⟩
  · rintro (⟨⟨k, he, hu, hk⟩, hne⟩ | ⟨rfl, rfl, rfl⟩)
    · refine ⟨k, (hedge k).2 he, hu, ?_⟩
      rw [h.entry hwf he.1, if_neg]
      · exact hk
      · rintro ⟨rfl, rfl⟩
        exact hne ⟨rfl, hk.unique hh hu hfits⟩
    · exact ⟨j, ((h.relabelled hwf).edge _ _ _).2 h.edge, hfits', hh'⟩

/-- **Renaming** moves what is at the old path. -/
theorem Agrees.renamed {srcPath dstPath : Path} (ha : s.Agrees N) (hp : s.Parent srcPath p old)
    (hp' : s.Parent dstPath p new) : t.Agrees (LabelledTree.move N srcPath.tokens dstPath.tokens) := by
  have htree := hn.tree hwf
  have hdir : t.isDir = s.isDir := by
    funext k
    rw [isDir, h.inodes]
    exact field_update (fun ino => sIsDir ino.mode) (by rfl) k
  have hP := ((ha _ _ _).1 (ha.of_parent hwf hn hp)).1
  have hdst : dstPath.tokens = srcPath.tokens.dropLast ++ [new] := hn.held.tokens_of_parent hwf hp hp'
  obtain ⟨hfits, hh⟩ := hn.held.holds_of_findEntry h.edge.1 hold hj
  have hedge : s.NameEdge p old i := ⟨j, h.edge, hfits, hh⟩
  have hfree : ∀ y, ¬ s.NameEdge p new y := by
    rintro y ⟨k, he, hu, hk⟩
    have hnamed := (hk.named_iff hu hu.nul).2 rfl
    exact Bool.false_ne_true ((h.unused k he.2.1).symm.trans hnamed)
  intro q x b
  rw [htree.path_relabel hP hedge hfree (h.nameEdge_iff hwf hn hold hj hstored) q x, hdir, hdst,
    ← hp.tokens]
  have hbelow : srcPath.tokens.dropLast ++ [new] <+: q ↔
      ∃ u, q = srcPath.tokens.dropLast ++ [new] ++ u := exists_congr fun _ => eq_comm
  by_cases hq : srcPath.tokens.dropLast ++ [new] <+: q
  · obtain ⟨u, rfl⟩ := hbelow.1 hq
    rw [LabelledTree.move_below, ha, hp.tokens, List.dropLast_concat]
    refine and_congr_left fun _ => ⟨fun hx => Or.inl ⟨u, rfl, hx⟩, ?_⟩
    rintro (⟨v, hv, hx⟩ | ⟨-, hx⟩)
    · rwa [List.append_cancel_left hv]
    · exact absurd hx (htree.not_path_of_free hP hfree)
  · have hno : ¬ ∃ u, q = srcPath.tokens.dropLast ++ [new] ++ u ∧
        LabelledTree.Path s.NameEdge 1 (srcPath.tokens ++ u) x := by
      rintro ⟨u, hu, -⟩
      exact hq (hbelow.2 ⟨u, hu⟩)
    rw [or_iff_right hno]
    by_cases hsrc : srcPath.tokens <+: q
    · rw [LabelledTree.move_old N hq hsrc]
      exact iff_of_false (by simp) fun hx => hx.1.1 hsrc
    · rw [LabelledTree.move_other N hq hsrc, ha]
      exact and_congr_left fun _ => (and_iff_right hsrc).symm

end Renamed

/-! ## What the store says of a path -/

section Paths

variable (h : Backs s N M)
include h

theorem Backs.tree : LabelledTree s.Node (fun i => s.isDir i = true) 1 s.NameEdge :=
  h.named.tree h.toWf

theorem Backs.eq_some_iff {o : Object} : M q = some o ↔
    ∃ i, LabelledTree.Path s.NameEdge 1 q i ∧ o = s.object i := by
  rw [h.objects]
  constructor
  · intro hq
    obtain ⟨⟨i, b⟩, hi, rfl⟩ := Option.map_eq_some_iff.1 hq
    exact ⟨i, ((h.agrees q i b).1 hi).1, rfl⟩
  · rintro ⟨i, hi, rfl⟩
    rw [(h.agrees q i _).2 ⟨hi, rfl⟩]
    rfl

theorem Backs.of_path (hi : LabelledTree.Path s.NameEdge 1 q i) : M q = some (s.object i) :=
  h.eq_some_iff.2 ⟨i, hi, rfl⟩

theorem Backs.of_resolve (hr : s.resolve 1 path.tokens = .inr i) : M path.tokens = some (s.object i) := by
  refine h.of_path ((h.named.resolve_iff h.toWf fun _ ht => ?_).1 hr)
  exact path.nul_notMem_of_mem_tokens ht

theorem Backs.of_resolve_error {e : ℤ} (hr : s.resolve 1 path.tokens = .inl e) : M path.tokens = none := by
  rw [h.objects, h.agrees.of_resolve_error h.toWf h.named hr]
  rfl

theorem Backs.isSome_iff : (M q).isSome = true ↔ ∃ i, LabelledTree.Path s.NameEdge 1 q i := by
  rw [Option.isSome_iff_exists]
  constructor
  · rintro ⟨o, ho⟩
    obtain ⟨i, hi, -⟩ := h.eq_some_iff.1 ho
    exact ⟨i, hi⟩
  · rintro ⟨i, hi⟩
    exact ⟨_, h.of_path hi⟩

/-- A file is on the way from the end of `π` down `q`. -/
def FileOnWay (s : FS g) (π q : List Name) : Prop :=
  ∃ u x, u <+: q ∧ LabelledTree.Path s.NameEdge 1 (π ++ u) x ∧ s.isDir x = false

/-- A walk fails at the first file on the way, or at the first name that is missing. -/
theorem Backs.error_walk {e : ℤ} {d : ℕ} {π : List Name} (hq : ∀ t ∈ q, 0 ∉ t) (hd : s.AllocDir d)
    (hπ : LabelledTree.Path s.NameEdge 1 π d) (hr : s.resolve d q = .inl e) :
    e = -ENOTDIR ∧ s.FileOnWay π q ∨ e = -ENOENT ∧ ¬ s.FileOnWay π q := by
  have htree := h.tree
  have hself : ∀ {d π x}, s.AllocDir d → LabelledTree.Path s.NameEdge 1 π d →
      LabelledTree.Path s.NameEdge 1 (π ++ []) x → s.isDir x = true := by
    intro d π x hd hπ hx
    rw [List.append_nil] at hx
    rw [htree.path_functional hx hπ]
    exact hd.2
  induction q generalizing d π with
  | nil => exact absurd hr (by simp [resolve])
  | cons n q ih =>
    have hn := hq n List.mem_cons_self
    rw [resolve] at hr
    cases hf : findEntry (s.dirBlock d) n with
    | none =>
      rw [hf] at hr
      refine Or.inr ⟨(Sum.inl.inj hr).symm, ?_⟩
      rintro ⟨u, x, hu, hx, hfile⟩
      rcases List.prefix_cons_iff.1 hu with rfl | ⟨u, rfl, -⟩
      · exact Bool.false_ne_true (hfile.symm.trans (hself hd hπ hx))
      · rw [← List.singleton_append, ← List.append_assoc] at hx
        obtain ⟨z, hz⟩ := LabelledTree.exists_path_of_append hx
        obtain ⟨d', hd', he⟩ := LabelledTree.path_snoc_iff.1 hz
        obtain rfl := htree.path_functional hd' hπ
        have hchild := (h.named.child_iff hd hn).2 he
        rw [child, hf] at hchild
        exact absurd hchild (by simp)
    | some j =>
      have he := edge_of_findEntry hd hf
      have hisDir := h.edge_isDir he
      have hstep := hπ.snoc ⟨j, he, h.named.held.holds_of_findEntry hd hn hf⟩
      rw [hf] at hr
      dsimp only at hr
      split at hr
      · next hfile =>
        rw [Bool.and_eq_true, Bool.not_eq_true', Bool.not_eq_true', hisDir] at hfile
        exact Or.inl ⟨(Sum.inl.inj hr).symm, [n], _, by simp, hstep, hfile.2⟩
      · next hdir =>
        have hne : q ≠ [] := by
          rintro rfl
          exact absurd hr (by simp [resolve])
        have hdir' : s.AllocDir (s.entry d j).inode.toNat := by
          rw [hisDir] at hdir
          exact ⟨(h.edge_child he).1, by simpa [hne] using hdir⟩
        have hway : s.FileOnWay π (n :: q) ↔ s.FileOnWay (π ++ [n]) q := by
          constructor
          · rintro ⟨u, x, hu, hx, hfile⟩
            rcases List.prefix_cons_iff.1 hu with rfl | ⟨u, rfl, hu'⟩
            · exact absurd (hfile.symm.trans (hself hd hπ hx)) Bool.false_ne_true
            · exact ⟨u, x, hu', by simpa using hx, hfile⟩
          · rintro ⟨u, x, hu, hx, hfile⟩
            exact ⟨n :: u, x, List.cons_prefix_cons.2 ⟨rfl, hu⟩, by simpa using hx, hfile⟩
        rw [hway]
        exact ih (fun t ht => hq t (List.mem_cons_of_mem _ ht)) hdir' hstep hr

/-- **The error of a walk** is that of the store. -/
theorem Backs.error_eq {e : ℤ} (hr : s.resolve 1 path.tokens = .inl e) : M.error path.tokens = e := by
  have hway : (∃ u o, u <+: path.tokens ∧ M u = some o ∧ o.isDir = false) ↔ s.FileOnWay [] path.tokens := by
    constructor
    · rintro ⟨u, o, hu, ho, hfile⟩
      obtain ⟨x, hx, rfl⟩ := h.eq_some_iff.1 ho
      exact ⟨u, x, hu, hx, hfile⟩
    · rintro ⟨u, x, hu, hx, hfile⟩
      exact ⟨u, _, hu, h.of_path hx, hfile⟩
  have hnul : ∀ t ∈ path.tokens, 0 ∉ t := fun _ ht => path.nul_notMem_of_mem_tokens ht
  unfold Store.error
  rcases h.error_walk hnul h.allocDir_one .nil hr with ⟨rfl, hfile⟩ | ⟨rfl, hno⟩
  · exact if_pos (hway.2 hfile)
  · exact if_neg (mt hway.1 hno)

/-! ## Directories and limits -/

/-- The parent of a path is a directory of the store. -/
theorem Backs.of_parent (hp : s.Parent path p last) : M.IsDir path.tokens.dropLast := by
  obtain ⟨hpath, hdir⟩ := (h.agrees _ _ _).1 (h.agrees.of_parent h.toWf h.named hp)
  exact ⟨_, h.of_path hpath, hdir⟩

/-- A walk that fails leads to no directory of the store. -/
theorem Backs.not_isDir_of_walk {e : ℤ} (hw : s.walk 1 path.tokens.dropLast = .inl e) :
    ¬ M.IsDir path.tokens.dropLast := by
  rintro ⟨o, ho, hdir⟩
  obtain ⟨p, hp, rfl⟩ := h.eq_some_iff.1 ho
  rw [h.agrees.walk h.toWf h.named (fun t ht => path.nul_notMem_of_mem_tokens (List.mem_of_mem_dropLast ht))
    ((h.agrees _ _ _).2 ⟨hp, hdir⟩)] at hw
  exact absurd hw (by simp)

theorem Backs.children_eq (q : List Name) : M.children q = N.children q := by
  ext t
  show (M (q ++ [t])).isSome = true ↔ ∃ x, N (q ++ [t]) = some x
  rw [h.objects, Option.isSome_map, Option.isSome_iff_exists]

/-- There are as many paths as there are inodes in use, but for inode 0. -/
theorem Backs.ncard_paths : M.paths.ncard + 1 = s.setBits.card := by
  have hbits := h.bits_ge
  have hmem : ∀ i, i ∈ s.setBits ↔ s.inodeMap i = true := fun i => by
    rw [setBits, Finset.mem_filter, Finset.mem_range, and_iff_right_iff_imp]
    intro hi
    have := h.lt_of_alloc hi
    omega
  have hzero : 0 ∈ s.setBits := (hmem 0).2 h.bit_zero
  have hnode : ∀ i ∈ s.setBits.erase 0, s.Node i := fun i hi => by
    rw [Finset.mem_erase, hmem] at hi
    exact ⟨hi.2, hi.1⟩
  -- each node has one path, and each path leads to one node
  choose f hf using fun i : {i // i ∈ s.setBits.erase 0} => h.tree.exists_path (hnode i.1 i.2)
  have hrange : M.paths = Set.range f := by
    ext q
    show (M q).isSome = true ↔ ∃ i, f i = q
    rw [h.isSome_iff]
    constructor
    · rintro ⟨i, hi⟩
      have hin := h.tree.arborescent.node_of_path hi
      have hi' : i ∈ s.setBits.erase 0 := Finset.mem_erase.2 ⟨hin.2, (hmem i).2 hin.1⟩
      exact ⟨⟨i, hi'⟩, h.tree.arborescent.path_unique (hf ⟨i, hi'⟩) hi⟩
    · rintro ⟨i, rfl⟩
      exact ⟨i.1, hf i⟩
  have hinj : Function.Injective f := fun i j hij =>
    Subtype.ext (h.tree.path_functional (hf i) (hij ▸ hf j))
  rw [hrange, ← Set.image_univ, Set.ncard_image_of_injective _ hinj, Set.ncard_univ, Nat.card_eq_fintype_card,
    Fintype.card_coe, Finset.card_erase_add_one hzero]

/-- **Room** for a new object: an inode and a slot are free. -/
theorem Backs.room_iff (hp : s.Parent path p last) :
    M.paths.ncard < 63 ∧ (M.children path.tokens.dropLast).ncard < 32 ↔
      (∃ i < 64, s.inodeMap i = false) ∧ ∃ j < 32, (s.entry p j).valid = false := by
  have hdir := h.agrees.of_parent h.toWf h.named hp
  have hcard := h.ncard_paths
  rw [h.children_eq, h.agrees.ncard_children h.toWf h.named hdir, card_validSlots, ← h.card_setBits]
  exact and_congr_left fun _ => by omega

/-! ## Changes of one object -/

/-- Nothing changed that the store sees. -/
theorem Backs.of_spared (hrep : Represents t N) (hmap : t.inodeMap = s.inodeMap)
    (hspared : ∀ k, s.inodeMap k = true → Spared k s t) : Backs t N M := by
  refine ⟨hrep, fun q => ?_, fun k hk hf => ?_⟩
  · rw [h.objects]
    cases hq : N q with
    | none => rfl
    | some x =>
      have hnode := h.tree.arborescent.node_of_path ((h.agrees q x.1 x.2).1 hq).1
      rw [Option.map_some, Option.map_some, (hspared x.1 hnode.1).object]
  · rw [hmap] at hk
    have hsp := hspared k hk
    exact hsp.exact (hsp.isDir.symm.trans hf) (h.exact k hk (hsp.isDir.symm.trans hf))

/-- The object at one path changed. -/
theorem Backs.changed (hrep : Represents t N) (hmap : t.inodeMap = s.inodeMap)
    (hi : LabelledTree.Path s.NameEdge 1 q i) (hspared : ∀ k, s.inodeMap k = true → k ≠ i → Spared k s t)
    (hexact : t.isDir i = false → t.Exact i) : Backs t N (update M q (some (t.object i))) := by
  refine ⟨hrep, fun q' => ?_, fun k hk hf => ?_⟩
  · by_cases hq : q' = q
    · subst hq
      rw [update_self, (h.agrees q' i _).2 ⟨hi, rfl⟩]
      rfl
    · rw [update_of_ne hq, h.objects]
      cases hN : N q' with
      | none => rfl
      | some x =>
        have hx := ((h.agrees q' x.1 x.2).1 hN).1
        have hne : x.1 ≠ i := by
          rintro rfl
          exact hq (h.tree.arborescent.path_unique hx hi)
        have hnode := h.tree.arborescent.node_of_path hx
        rw [Option.map_some, Option.map_some, (hspared x.1 hnode.1 hne).object]
  · rcases eq_or_ne k i with rfl | hki
    · exact hexact hf
    · rw [hmap] at hk
      have hsp := hspared k hk hki
      exact hsp.exact (hsp.isDir.symm.trans hf) (h.exact k hk (hsp.isDir.symm.trans hf))

end Paths

end FS

end Fsx600
