import Fsx600.Spec.Lookup
import Fsx600.Spec.Pointers
import Fsx600.Lib.LabelledTree

/-!
# Well-formed states

`Wf` collects what holds between the operations: the directories form a tree that
names every allocated inode once, and the block map agrees with the pointers.

The last two fields are about slots that are no longer in use.  `fs_unlink` leaves an
inode number behind in the slot it clears, and `fs_rmdir` and `fs_rename` look an entry
up by inode number without testing the valid bit.  What saves them is `slot_order`: a
stale slot in front of a valid one never carries its number, because a slot is filled
only when every slot before it is valid.

`WellFormed` adds that the inode region holds all the 64 inodes that `get_free_inode`
hands out, and `Indexed` only that it holds those that are allocated.
-/

namespace Fsx600

open Checked Ownership

/-- Every block below `max_num_blocks` has a bit in the block map and lies in the image. -/
structure Layout.Sized (g : Layout) : Prop where
  le_bits : g.maxNumBlocks ≤ g.blockBits
  le_nblks : g.maxNumBlocks ≤ g.nblks

namespace FS

variable {g : Layout}

/-- An allocated directory. -/
def AllocDir (s : FS g) (d : ℕ) : Prop := s.inodeMap d = true ∧ s.isDir d = true

/-- Slot `j` of the allocated directory `d` is valid and names inode `c`. -/
def Edge (s : FS g) (d j c : ℕ) : Prop :=
  s.AllocDir d ∧ j < 32 ∧ (s.entry d j).valid = true ∧ (s.entry d j).inode.toNat = c

/-- What every operation finds and leaves behind. -/
structure Wf (s : FS g) : Prop where
  numBlocks_le_bits : g.maxNumBlocks ≤ g.blockBits
  numBlocks_le_nblks : g.maxNumBlocks ≤ g.nblks
  bits_pos : 0 < g.inodeBits
  bit_zero : s.inodeMap 0 = true
  bit_one : s.inodeMap 1 = true
  root_isDir : s.isDir 1 = true
  /-- A valid entry names an allocated inode other than the first two. -/
  edge_child : ∀ {d j c}, s.Edge d j c → s.inodeMap c = true ∧ 2 ≤ c ∧ c ≤ 63
  /-- The type in the entry is the type in the inode. -/
  edge_isDir : ∀ {d j c}, s.Edge d j c → (s.entry d j).isDir = s.isDir c
  named_once : ∀ c, 2 ≤ c → s.inodeMap c = true → ∃! x : ℕ × ℕ, s.Edge x.1 x.2 c
  reachable : ∀ d, s.AllocDir d → Relation.ReflTransGen (fun d c => ∃ j, s.Edge d j c) 1 d
  /-- Referenced blocks are in the data region, marked, and referenced once. -/
  sound : Sound s.owner s.InUse
  name_nul : ∀ d j, s.AllocDir d → j < 32 → (s.entry d j).nameByte 27 = 0
  slot_order : ∀ d j k, s.AllocDir d → j < k → k < 32 → (s.entry d k).valid = true →
    (s.entry d j).inode ≠ (s.entry d k).inode

/-- The part of `Wf` that the contents of files rest on: the blocks that allocated inodes
reference. -/
structure SoundBlocks (s : FS g) : Prop where
  /-- `max_num_blocks` is an `int`. -/
  numBlocks_lt : g.maxNumBlocks < 2 ^ 31
  sound : Sound s.owner s.InUse

/-- A well-formed state on an image with room for 64 inodes. -/
structure WellFormed (s : FS g) : Prop extends Wf s where
  inodes_ge : 64 ≤ g.numInodes

/-- A well-formed state whose allocated inodes lie in the inode region, however small. -/
structure Indexed (s : FS g) : Prop extends Wf s where
  inode_lt : ∀ i, s.inodeMap i = true → i < g.numInodes

/-- The nodes of the tree: every allocated inode but inode 0, which is reserved. -/
def Node (s : FS g) (i : ℕ) : Prop := s.inodeMap i = true ∧ i ≠ 0

variable {s : FS g}

/-! ## The tree -/

theorem Wf.allocDir_one (h : Wf s) : s.AllocDir 1 := ⟨h.bit_one, h.root_isDir⟩

theorem Wf.not_allocDir_zero (h : Wf s) : ¬ s.AllocDir 0 := by
  intro h0
  rcases Relation.ReflTransGen.cases_tail (h.reachable 0 h0) with h1 | ⟨d, -, j, he⟩
  · exact absurd h1 (by omega)
  · have := h.edge_child he
    omega

/-- A well-formed state is a tree of inodes, with the slots for labels. -/
theorem Wf.tree (h : Wf s) : LabelledTree s.Node (fun i => s.isDir i = true) 1 s.Edge where
  root_node := ⟨h.bit_one, by omega⟩
  root_dir := h.root_isDir
  source := fun {d _ _} he => by
    refine ⟨⟨he.1.1, ?_⟩, he.1.2⟩
    rintro rfl
    exact h.not_allocDir_zero he.1
  target := fun he => by
    have := h.edge_child he
    exact ⟨⟨this.1, by omega⟩, by omega⟩
  functional := fun he he' => he.2.2.2.symm.trans he'.2.2.2
  parent_exists := fun {c} hc hr => by
    obtain ⟨x, hx, -⟩ := h.named_once c (by have := hc.2; omega) hc.1
    exact ⟨x.1, x.2, hx⟩
  parent_unique := fun {d i d' i' c} he he' => by
    have hc := h.edge_child he
    have hx : (d, i) = (d', i') := (h.named_once c hc.2.1 hc.1).unique he he'
    exact Prod.mk.inj hx
  reach := fun hd hdd => h.reachable _ ⟨hd.1, hdd⟩

/-- The part of `Wf` that a tree gives back. -/
theorem named_once_of_tree (ht : LabelledTree s.Node (fun i => s.isDir i = true) 1 s.Edge) {c : ℕ}
    (hc : 2 ≤ c) (hb : s.inodeMap c = true) : ∃! x : ℕ × ℕ, s.Edge x.1 x.2 c := by
  obtain ⟨d, j, he⟩ := ht.parent_exists ⟨hb, by omega⟩ (by omega)
  refine ⟨(d, j), he, fun y hy => ?_⟩
  obtain ⟨h1, h2⟩ := ht.parent_unique hy he
  exact Prod.ext h1 h2

theorem reachable_of_tree (ht : LabelledTree s.Node (fun i => s.isDir i = true) 1 s.Edge)
    (h0 : s.isDir 0 = false) {d : ℕ} (hd : s.AllocDir d) :
    Relation.ReflTransGen (fun d c => ∃ j, s.Edge d j c) 1 d := by
  refine ht.reach ⟨hd.1, ?_⟩ hd.2
  rintro rfl
  exact Bool.false_ne_true (h0.symm.trans hd.2)

theorem Wf.isDir_zero (h : Wf s) : s.isDir 0 = false := by
  by_contra h0
  exact h.not_allocDir_zero ⟨h.bit_zero, by simpa using h0⟩

/-- Only the first 64 inodes are ever allocated. -/
theorem Wf.lt_of_alloc (h : Wf s) {i : ℕ} (hi : s.inodeMap i = true) : i < 64 := by
  by_contra hlt
  obtain ⟨x, hx, -⟩ := h.named_once i (by omega) hi
  have := h.edge_child hx
  omega

/-- There are at most 63 nodes. -/
theorem Wf.mem_of_node (h : Wf s) {i : ℕ} (hi : s.Node i) : i ∈ (Finset.range 64).erase 0 :=
  Finset.mem_erase.mpr ⟨hi.2, Finset.mem_range.mpr (h.lt_of_alloc hi.1)⟩

theorem WellFormed.indexed (h : WellFormed s) : Indexed s :=
  ⟨h.toWf, fun _ hi => (h.lt_of_alloc hi).trans_le h.inodes_ge⟩

theorem Wf.bits_ge (h : Wf s) : 64 ≤ g.inodeBits := by
  have := h.bits_pos
  rw [Layout.inodeBits] at this ⊢
  omega

theorem Wf.sized (h : Wf s) : g.Sized := ⟨h.numBlocks_le_bits, h.numBlocks_le_nblks⟩

theorem Wf.blocks (h : Wf s) : s.SoundBlocks where
  numBlocks_lt := by
    have := g.nblks_lt
    have := h.numBlocks_le_nblks
    omega
  sound := h.sound

/-! ## Directory blocks -/

/-- The block of an allocated directory is held by its `direct[0]`. -/
theorem owner_dir {d : ℕ} (hd : s.AllocDir d) :
    s.owner (d, .direct 0) = some ((s.inodes d).directAt 0).toNat :=
  owner_eq_some.2 ⟨hd.1, refers_of_isDir hd.2⟩

theorem SoundBlocks.dirBlock_inUse (h : s.SoundBlocks) {d : ℕ} (hd : s.AllocDir d) :
    s.InUse ((s.inodes d).directAt 0).toNat :=
  h.sound.used (owner_dir hd)

theorem Wf.dirBlock_inUse (h : Wf s) {d : ℕ} (hd : s.AllocDir d) :
    s.InUse ((s.inodes d).directAt 0).toNat :=
  h.blocks.dirBlock_inUse hd

/-- Two directories have two blocks. -/
theorem Wf.dirBlock_inj (h : Wf s) {d e : ℕ} (hd : s.AllocDir d) (he : s.AllocDir e)
    (hb : ((s.inodes d).directAt 0).toNat = ((s.inodes e).directAt 0).toNat) : d = e :=
  congrArg Prod.fst (h.sound.inj (owner_dir hd) (hb ▸ owner_dir he))

/-- A block that a slot of another inode holds is not the block of a directory. -/
theorem Wf.dirBlock_ne (h : Wf s) {d i b : ℕ} {σ : Slot} (hd : s.AllocDir d) (hi : i ≠ d)
    (hb : s.owner (i, σ) = some b) : ((s.inodes d).directAt 0).toNat ≠ b := by
  rintro rfl
  exact hi (congrArg Prod.fst (h.sound.inj hb (owner_dir hd)))

/-! ## Walks -/

/-- An entry found by name is a valid entry of the tree. -/
theorem edge_of_findEntry {d j : ℕ} {n : Name} (hd : s.AllocDir d)
    (hf : findEntry (s.dirBlock d) n = some j) : s.Edge d j (s.entry d j).inode.toNat := by
  obtain ⟨h1, -, h3, -⟩ := findEntry_eq_some hf
  exact ⟨hd, h1, h3, rfl⟩

/-- A walk from a directory ends in a directory. -/
theorem Wf.allocDir_of_walk (h : Wf s) {d p : ℕ} {q : List Name} (hd : s.AllocDir d)
    (hw : s.walk d q = .inr p) : s.AllocDir p := by
  induction q generalizing d with
  | nil =>
    rw [walk] at hw
    exact Sum.inr.inj hw ▸ hd
  | cons n q ih =>
    rw [walk] at hw
    split at hw
    · simp at hw
    · next j hf =>
      split at hw
      · next hj =>
        have he := edge_of_findEntry hd hf
        exact ih ⟨(h.edge_child he).1, (h.edge_isDir he).symm.trans hj⟩ hw
      · simp at hw

/-- Walks see the blocks of directories only. -/
theorem Wf.walk_congr (h : Wf s) {s' : FS g} (hs : ∀ d, s.AllocDir d → s'.dirBlock d = s.dirBlock d)
    {d : ℕ} (hd : s.AllocDir d) (q : List Name) : s'.walk d q = s.walk d q := by
  induction q generalizing d with
  | nil => rfl
  | cons n q ih =>
    rw [walk, walk, hs d hd]
    cases hf : findEntry (s.dirBlock d) n with
    | none => rfl
    | some j =>
      have he := edge_of_findEntry hd hf
      dsimp only
      rw [entry, hs d hd, ← entry]
      by_cases hj : (s.entry d j).isDir = true
      · rw [if_pos hj, if_pos hj]
        exact ih ⟨(h.edge_child he).1, (h.edge_isDir he).symm.trans hj⟩
      · rw [if_neg hj, if_neg hj]

theorem child_congr {s' : FS g} {d : ℕ} (hs : s'.dirBlock d = s.dirBlock d) (n : Name) :
    s'.child d n = s.child d n := by
  rw [child, child, hs]
  simp only [entry, hs]

theorem Wf.resolve_congr (h : Wf s) {s' : FS g}
    (hs : ∀ d, s.AllocDir d → s'.dirBlock d = s.dirBlock d) (q : List Name) :
    s'.resolve 1 q = s.resolve 1 q := by
  rcases List.eq_nil_or_concat q with rfl | ⟨q, n, rfl⟩
  · rfl
  · rw [List.concat_eq_append, resolve_append, resolve_append, h.walk_congr hs h.allocDir_one]
    cases hw : s.walk 1 q with
    | inl e => rfl
    | inr p => exact child_congr (hs p (h.allocDir_of_walk h.allocDir_one hw)) n

/-- Lookups see the names and the contents of valid entries only. -/
theorem Wf.resolve_congr_of_entry (h : Wf s) {s' : FS g}
    (hfind : ∀ d, s.AllocDir d → ∀ n, findEntry (s'.dirBlock d) n = findEntry (s.dirBlock d) n)
    (hentry : ∀ d j i, s.Edge d j i → s'.entry d j = s.entry d j) {d : ℕ} (q : List Name)
    (hd : q ≠ [] → s.AllocDir d) : s'.resolve d q = s.resolve d q := by
  induction q generalizing d with
  | nil => rfl
  | cons n q ih =>
    have hd := hd (List.cons_ne_nil _ _)
    rw [resolve, resolve, hfind d hd]
    cases hf : findEntry (s.dirBlock d) n with
    | none => rfl
    | some j =>
      have he := edge_of_findEntry hd hf
      dsimp only
      rw [hentry d j _ he]
      split
      · rfl
      · next hj =>
        exact ih fun hq => ⟨(h.edge_child he).1, (h.edge_isDir he).symm.trans (by simpa [hq] using hj)⟩

/-- A child found by name is named by a valid entry. -/
theorem Wf.edge_of_child {d c : ℕ} {n : Name} (hd : s.AllocDir d) (hc : s.child d n = .inr c) :
    ∃ j, findEntry (s.dirBlock d) n = some j ∧ s.Edge d j c := by
  obtain ⟨j, hf, rfl⟩ := child_inode hc
  exact ⟨j, hf, edge_of_findEntry hd hf⟩

/-- What a path leads to is allocated. -/
theorem Wf.alloc_of_resolve (h : Wf s) {i : ℕ} {q : List Name} (hr : s.resolve 1 q = .inr i) :
    s.inodeMap i = true := by
  rcases List.eq_nil_or_concat q with rfl | ⟨q, n, rfl⟩
  · rw [resolve] at hr
    exact Sum.inr.inj hr ▸ h.bit_one
  · rw [List.concat_eq_append, resolve_append] at hr
    cases hw : s.walk 1 q with
    | inl e => simp [hw] at hr
    | inr p =>
      rw [hw, Sum.elim_inr] at hr
      obtain ⟨j, -, he⟩ := Wf.edge_of_child (h.allocDir_of_walk h.allocDir_one hw) hr
      exact (h.edge_child he).1

/-- What a path leads to is as deep in the tree as the path is long. -/
theorem Wf.path_of_resolve (h : Wf s) {d i : ℕ} {q : List Name} {π : List ℕ}
    (hd : q ≠ [] → s.AllocDir d) (hπ : LabelledTree.Path s.Edge 1 π d) (hr : s.resolve d q = .inr i) :
    ∃ π', LabelledTree.Path s.Edge 1 π' i ∧ π'.length = π.length + q.length := by
  induction q generalizing d π with
  | nil =>
    rw [resolve] at hr
    exact ⟨π, Sum.inr.inj hr ▸ hπ, rfl⟩
  | cons n q ih =>
    have hd := hd (List.cons_ne_nil _ _)
    rw [resolve] at hr
    cases hf : findEntry (s.dirBlock d) n with
    | none =>
      rw [hf] at hr
      exact absurd hr (by simp)
    | some j =>
      have he := edge_of_findEntry hd hf
      rw [hf] at hr
      dsimp only at hr
      split at hr
      · exact absurd hr (by simp)
      · next hj =>
        have hchild : q ≠ [] → s.AllocDir (s.entry d j).inode.toNat := fun hq =>
          ⟨(h.edge_child he).1, (h.edge_isDir he).symm.trans (by simpa [hq] using hj)⟩
        obtain ⟨π', hπ', hlen⟩ := ih hchild (hπ.snoc he) hr
        refine ⟨π', hπ', ?_⟩
        rw [hlen, List.length_append, List.length_singleton, List.length_cons]
        omega

/-- A path that resolves is short: it meets no inode twice. -/
theorem Wf.length_le (h : Wf s) {q : List Name} {i : ℕ} (hr : s.resolve 1 q = .inr i) :
    q.length ≤ 62 := by
  obtain ⟨π, hπ, hlen⟩ := h.path_of_resolve (fun _ => h.allocDir_one) .nil hr
  have hlt := h.tree.arborescent.length_lt_card (fun x hx => h.mem_of_node hx) hπ
  rw [Finset.card_erase_of_mem (by simp), Finset.card_range, hlen, List.length_nil] at hlt
  omega

end FS

end Fsx600
