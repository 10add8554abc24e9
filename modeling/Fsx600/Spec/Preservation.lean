import Fsx600.Spec.Truncation

/-!
# Well-formedness is kept

One lemma for each kind of change: `Wf.created`, `Wf.removed` and `Wf.relabel`.  The
first two add a leaf to the tree of inodes and take one away, and `LabelledTree` does the
tree part of the argument; what is left to say is which entries the next state has.
-/

namespace Fsx600

open Checked Function Ownership

namespace FS

variable {g : Layout} {s s' : FS g} {c : Context}

/-! ## Changes in place -/

/-- The directories say the same but for the names in their entries. -/
structure Relabelled (s s' : FS g) : Prop where
  inodeMap : s'.inodeMap = s.inodeMap
  isDir : ∀ i, s.inodeMap i = true → s'.isDir i = s.isDir i
  valid : ∀ d j, s.AllocDir d → j < 32 → (s'.entry d j).valid = (s.entry d j).valid
  entry_isDir : ∀ d j, s.AllocDir d → j < 32 → (s'.entry d j).isDir = (s.entry d j).isDir
  inode : ∀ d j, s.AllocDir d → j < 32 → (s'.entry d j).inode = (s.entry d j).inode
  name_nul : ∀ d j, s.AllocDir d → j < 32 → (s'.entry d j).nameByte 27 = 0

theorem Relabelled.allocDir (h : Relabelled s s') (d : ℕ) : s'.AllocDir d ↔ s.AllocDir d := by
  rw [AllocDir, AllocDir, h.inodeMap]
  exact and_congr_right fun hd => by rw [h.isDir d hd]

theorem Relabelled.edge (h : Relabelled s s') (d j k : ℕ) : s'.Edge d j k ↔ s.Edge d j k := by
  rw [Edge, Edge, h.allocDir]
  refine and_congr_right fun hd => and_congr_right fun hj => ?_
  rw [h.valid d j hd hj, h.inode d j hd hj]

/-- Unchanged directories say the same. -/
theorem Wf.relabelled_of_dirBlock (hwf : Wf s) (hmap : s'.inodeMap = s.inodeMap)
    (hdir : ∀ i, s.inodeMap i = true → s'.isDir i = s.isDir i)
    (hblock : ∀ d, s.AllocDir d → s'.dirBlock d = s.dirBlock d) : Relabelled s s' where
  inodeMap := hmap
  isDir := hdir
  valid := fun d j hd _ => by rw [entry, hblock d hd, entry]
  entry_isDir := fun d j hd _ => by rw [entry, hblock d hd, entry]
  inode := fun d j hd _ => by rw [entry, hblock d hd, entry]
  name_nul := fun d j hd hj => by
    rw [entry, hblock d hd]
    exact hwf.name_nul d j hd hj

/-- Changing names and contents keeps a state well formed if the blocks of the files still
agree with the block map. -/
theorem Wf.relabel (hwf : Wf s) (h : Relabelled s s') (hsound : Sound s'.owner s'.InUse) : Wf s' where
  numBlocks_le_bits := hwf.numBlocks_le_bits
  numBlocks_le_nblks := hwf.numBlocks_le_nblks
  bits_pos := hwf.bits_pos
  bit_zero := h.inodeMap ▸ hwf.bit_zero
  bit_one := h.inodeMap ▸ hwf.bit_one
  root_isDir := (h.isDir 1 hwf.bit_one).trans hwf.root_isDir
  edge_child := fun he => h.inodeMap ▸ hwf.edge_child ((h.edge _ _ _).1 he)
  edge_isDir := fun he => by
    have he' := (h.edge _ _ _).1 he
    rw [h.entry_isDir _ _ he'.1 he'.2.1, h.isDir _ (hwf.edge_child he').1]
    exact hwf.edge_isDir he'
  named_once := fun k hk hb => by
    simp only [h.edge]
    exact hwf.named_once k hk (h.inodeMap ▸ hb)
  reachable := fun d hd => by
    simp only [h.edge]
    exact hwf.reachable d ((h.allocDir d).1 hd)
  sound := hsound
  name_nul := fun d j hd hj => h.name_nul d j ((h.allocDir d).1 hd) hj
  slot_order := fun d j k hd hjk hk hv => by
    have hd' := (h.allocDir d).1 hd
    rw [h.inode d j hd' (by omega), h.inode d k hd' hk]
    exact hwf.slot_order d j k hd' hjk hk ((h.valid d k hd' hk).symm.trans hv)

/-- The table of owners sees the pointers and the blocks that files reference. -/
theorem owner_congr (hmap : s'.inodeMap = s.inodeMap)
    (hino : ∀ i, s.inodeMap i = true → s'.isDir i = s.isDir i ∧
      (s'.inodes i).direct = (s.inodes i).direct ∧ (s'.inodes i).indir1 = (s.inodes i).indir1 ∧
      (s'.inodes i).indir2 = (s.inodes i).indir2)
    (hdisk : ∀ i σ b, s.isDir i = false → s.owner (i, σ) = some b → s'.disk b = s.disk b) :
    s'.owner = s.owner := by
  funext x
  by_cases hx : s.inodeMap x.1 = true
  · obtain ⟨hm, hd, h1, h2⟩ := hino x.1 hx
    have hrefers : s'.refers x.1 = s.refers x.1 := refers_congr hm hd h1 h2 fun hf σ b hb =>
      hdisk x.1 σ b hf (owner_eq_some.2 ⟨hx, hb⟩)
    rw [owner, owner, hrefers, hmap]
  · rw [owner, owner, hmap, if_neg hx, if_neg hx]

/-- Flushing the inode map changes nothing that well-formedness speaks of. -/
theorem Wf.owner_writeInodeMap (hwf : Wf s) : s.writeInodeMap.owner = s.owner :=
  owner_congr rfl (fun _ _ => ⟨rfl, rfl, rfl, rfl⟩) fun _ _ _ _ hb =>
    disk_writeInodeMap s (hwf.sound.used hb).1

theorem Wf.writeInodeMap (hwf : Wf s) : Wf s.writeInodeMap := by
  refine hwf.relabel (hwf.relabelled_of_dirBlock rfl (fun _ _ => rfl) fun d hd => ?_) ?_
  · exact disk_writeInodeMap s (hwf.dirBlock_inUse hd).1
  · rw [hwf.owner_writeInodeMap]
    exact hwf.sound

/-! ## Times and permissions -/

section Touch

variable {i : ℕ} {ino : Inode}

theorem isDir_touch (hm : sIsDir ino.mode = s.isDir i) (k : ℕ) :
    (s.setInode i ino).writeAllInodes.isDir k = s.isDir k :=
  field_update (fun ino => sIsDir ino.mode) hm k

theorem SoundBlocks.dirBlock_touch (hs : s.SoundBlocks) (hd : ino.direct = (s.inodes i).direct) {d : ℕ}
    (hdir : s.AllocDir d) : (s.setInode i ino).writeAllInodes.dirBlock d = s.dirBlock d := by
  have hdirect : ((s.setInode i ino).writeAllInodes.inodes d).direct = (s.inodes d).direct :=
    field_update Inode.direct hd d
  rw [dirBlock, dirBlock, Inode.directAt, hdirect, ← Inode.directAt]
  exact disk_writeAllInodes _ (hs.dirBlock_inUse hdir).1

/-- Changing the times and permissions of an inode. -/
theorem SoundBlocks.owner_touch (hs : s.SoundBlocks) (hm : sIsDir ino.mode = s.isDir i)
    (hd : ino.direct = (s.inodes i).direct) (h1 : ino.indir1 = (s.inodes i).indir1)
    (h2 : ino.indir2 = (s.inodes i).indir2) :
    (s.setInode i ino).writeAllInodes.owner = s.owner := by
  refine owner_congr rfl (fun k _ => ⟨isDir_touch hm k, ?_, ?_, ?_⟩) fun k σ b _ hb =>
    disk_writeAllInodes _ (hs.sound.used hb).1
  · exact field_update Inode.direct hd k
  · exact field_update Inode.indir1 h1 k
  · exact field_update Inode.indir2 h2 k

theorem SoundBlocks.touch (hs : s.SoundBlocks) (hm : sIsDir ino.mode = s.isDir i)
    (hd : ino.direct = (s.inodes i).direct) (h1 : ino.indir1 = (s.inodes i).indir1)
    (h2 : ino.indir2 = (s.inodes i).indir2) : (s.setInode i ino).writeAllInodes.SoundBlocks := by
  refine ⟨hs.numBlocks_lt, ?_⟩
  rw [hs.owner_touch hm hd h1 h2]
  exact hs.sound

theorem Wf.touch (hwf : Wf s) (hm : sIsDir ino.mode = s.isDir i)
    (hd : ino.direct = (s.inodes i).direct) (h1 : ino.indir1 = (s.inodes i).indir1)
    (h2 : ino.indir2 = (s.inodes i).indir2) : Wf (s.setInode i ino).writeAllInodes := by
  refine hwf.relabel (hwf.relabelled_of_dirBlock rfl (fun k _ => isDir_touch hm k) fun d hdir => ?_) ?_
  · exact hwf.blocks.dirBlock_touch hd hdir
  · exact (hwf.blocks.touch hm hd h1 h2).sound

end Touch

/-! ## Renaming -/

theorem Renamed.dirBlock (hwf : Wf s) {p j i : ℕ} {new : Name} (h : Renamed c p j i new s s') {d : ℕ}
    (hd : s.AllocDir d) : s'.dirBlock d =
      if d = p then (s.dirBlock p).setDirent j ((s.entry p j).copyName new) else s.dirBlock d := by
  have hdirect : (s'.inodes d).directAt 0 = (s.inodes d).directAt 0 := by
    rw [h.inodes]
    exact field_update (fun ino => ino.directAt 0) (by rfl) d
  rw [FS.dirBlock, hdirect, h.disk _ (hwf.dirBlock_inUse hd).1]
  by_cases hdp : d = p
  · rw [hdp, if_pos rfl, if_pos rfl]
  · rw [if_neg (fun hb => hdp (hwf.dirBlock_inj hd h.edge.1 hb)), if_neg hdp, FS.dirBlock]

/-- A renamed entry differs in its name only. -/
theorem Renamed.entry (hwf : Wf s) {p j i : ℕ} {new : Name} (h : Renamed c p j i new s s') {d k : ℕ}
    (hd : s.AllocDir d) : s'.entry d k =
      if d = p ∧ k = j then (s.entry p j).copyName new else s.entry d k := by
  rw [FS.entry, h.dirBlock hwf hd]
  by_cases hdp : d = p
  · subst hdp
    rw [if_pos rfl]
    rcases eq_or_ne k j with rfl | hk
    · rw [if_pos ⟨rfl, rfl⟩, Block.dirent_setDirent_self _ _ h.edge.2.1]
    · rw [if_neg (fun h' => hk h'.2), Block.dirent_setDirent_of_ne _ _ hk, FS.entry]
  · rw [if_neg hdp, if_neg (fun h' => hdp h'.1), FS.entry]

theorem Renamed.relabelled (hwf : Wf s) {p j i : ℕ} {new : Name} (h : Renamed c p j i new s s') :
    Relabelled s s' where
  inodeMap := h.inodeMap
  isDir := fun k _ => by
    rw [isDir, h.inodes]
    exact field_update (fun ino => sIsDir ino.mode) (by rfl) k
  valid := fun d k hd _ => by
    rw [h.entry hwf hd]
    split
    · next h' => rw [h'.1, h'.2, Dirent.copyName_valid]
    · rfl
  entry_isDir := fun d k hd _ => by
    rw [h.entry hwf hd]
    split
    · next h' => rw [h'.1, h'.2, Dirent.copyName_isDir]
    · rfl
  inode := fun d k hd _ => by
    rw [h.entry hwf hd]
    split
    · next h' => rw [h'.1, h'.2, Dirent.copyName_inode]
    · rfl
  name_nul := fun d k hd hk => by
    have hnul := hwf.name_nul d k hd hk
    rw [h.entry hwf hd]
    split
    · next h' =>
      -- the new name has at most 25 bytes, so byte 27 is that of the old field
      have := h.fits.length_le
      rw [h'.1, h'.2] at hnul
      rw [Dirent.nameByte, dif_pos (by omega)] at hnul ⊢
      exact (dif_neg (show ¬ 27 < new.length by omega)).trans hnul
    · exact hnul

/-- The blocks of the files are left alone. -/
theorem Renamed.disk_of_file (hwf : Wf s) {p j i : ℕ} {new : Name} (h : Renamed c p j i new s s')
    {k b : ℕ} {σ : Slot} (hf : s.isDir k = false) (hb : s.owner (k, σ) = some b) :
    s'.disk b = s.disk b := by
  have hkp : k ≠ p := by
    rintro rfl
    exact Bool.false_ne_true (hf.symm.trans h.edge.1.2)
  rw [h.disk b (hwf.sound.used hb).1, if_neg (hwf.dirBlock_ne h.edge.1 hkp hb).symm]

/-- The pointers of every inode stay. -/
theorem Renamed.pointers {p j i : ℕ} {new : Name} (h : Renamed c p j i new s s') (k : ℕ) :
    (s'.inodes k).direct = (s.inodes k).direct ∧ (s'.inodes k).indir1 = (s.inodes k).indir1 ∧
      (s'.inodes k).indir2 = (s.inodes k).indir2 := by
  rw [h.inodes]
  exact ⟨field_update Inode.direct (by rfl) k, field_update Inode.indir1 (by rfl) k,
    field_update Inode.indir2 (by rfl) k⟩

theorem Renamed.owner (hwf : Wf s) {p j i : ℕ} {new : Name} (h : Renamed c p j i new s s') :
    s'.owner = s.owner :=
  owner_congr h.inodeMap (fun k hk => ⟨(h.relabelled hwf).isDir k hk, h.pointers k⟩)
    fun _ _ _ hf hb => h.disk_of_file hwf hf hb

theorem Wf.renamed (hwf : Wf s) {p j i : ℕ} {new : Name} (h : Renamed c p j i new s s') : Wf s' := by
  refine hwf.relabel (h.relabelled hwf) ?_
  have hused : s'.InUse = s.InUse := by
    funext b
    rw [InUse, InUse, h.blockMap]
  rw [h.owner hwf, hused]
  exact hwf.sound

/-! ## Creating -/

@[simp] theorem createdInode_mode (mode : UInt32) (old : Inode) (fresh : Option ℕ) :
    (createdInode c mode old fresh).mode = mode := by
  cases fresh <;> rfl

theorem newInode_empty (mode : UInt32) (old : Inode) : (newInode c mode old).Empty :=
  ⟨rfl, rfl, rfl⟩

theorem newDirent_holds {name : Name} (mode : UInt32) (n : ℕ) : (newDirent name mode n).Holds name := by
  have h := Dirent.zero_holds.copyName name
  rw [overwrite_of_le (Nat.zero_le _)] at h
  exact h.congr rfl

theorem newDirent_inode (name : Name) (mode : UInt32) {n : ℕ} (hn : n < 64) :
    (newDirent name mode n).inode.toNat = n := by
  simp only [newDirent, BitVec.toNat_ofNat]
  omega

section Created

variable {mode : UInt32} {p j n : ℕ} {name : Name} {fresh : Option ℕ}

theorem Created.ne_of_alloc (h : Created c mode p j n name fresh s s') {k : ℕ}
    (hk : s.inodeMap k = true) : k ≠ n := by
  rintro rfl
  rw [h.inode_free] at hk
  exact Bool.noConfusion hk

theorem Created.two_le (hwf : Wf s) (h : Created c mode p j n name fresh s s') : 2 ≤ n := by
  have h0 := h.ne_of_alloc hwf.bit_zero
  have h1 := h.ne_of_alloc hwf.bit_one
  omega

theorem Created.inodeMap_iff (h : Created c mode p j n name fresh s s') (k : ℕ) :
    s'.inodeMap k = true ↔ s.inodeMap k = true ∨ k = n := by
  rw [h.inodeMap, update_apply]
  by_cases hk : k = n <;> simp [hk]

theorem Created.isDir_self (h : Created c mode p j n name fresh s s') : s'.isDir n = sIsDir mode := by
  rw [isDir, h.inodes, update_self, createdInode_mode]

theorem Created.isDir_of_ne (h : Created c mode p j n name fresh s s') {k : ℕ} (hk : k ≠ n) :
    s'.isDir k = s.isDir k := by
  rw [isDir, h.inodes, update_of_ne hk, isDir]

theorem Created.allocDir_iff (h : Created c mode p j n name fresh s s') (d : ℕ) :
    s'.AllocDir d ↔ s.AllocDir d ∨ d = n ∧ sIsDir mode = true := by
  rw [AllocDir, h.inodeMap_iff]
  by_cases hd : d = n
  · subst hd
    rw [h.isDir_self]
    simp [AllocDir, h.inode_free]
  · rw [h.isDir_of_ne hd]
    simp [hd, AllocDir]

/-- The block of an old directory: the parent has a new entry, the others are as before. -/
theorem Created.dirBlock (hwf : Wf s) (h : Created c mode p j n name fresh s s') {d : ℕ}
    (hd : s.AllocDir d) : s'.dirBlock d =
      if d = p then (s.dirBlock p).setDirent j (newDirent name mode n) else s.dirBlock d := by
  have huse := hwf.dirBlock_inUse hd
  rw [FS.dirBlock, h.inodes, update_of_ne (h.ne_of_alloc hd.1), h.disk _ huse.1]
  by_cases hdp : d = p
  · rw [hdp, if_pos rfl, if_pos rfl]
  · rw [if_neg (fun hb => hdp (hwf.dirBlock_inj hd h.parent hb)), if_neg hdp, if_neg, FS.dirBlock]
    exact fun hfresh => (h.fresh_free _ hfresh).not_inUse huse

/-- The block of the new directory is empty. -/
theorem Created.dirBlock_self (hwf : Wf s) (h : Created c mode p j n name fresh s s')
    (hmode : sIsDir mode = true) : s'.dirBlock n = Block.zero := by
  obtain ⟨b, rfl⟩ := Option.isSome_iff_exists.mp (h.fresh_isSome.trans hmode)
  have hb := h.fresh_free b rfl
  have hne : b ≠ ((s.inodes p).directAt 0).toNat := by
    rintro rfl
    exact hb.not_inUse (hwf.dirBlock_inUse h.parent)
  rw [FS.dirBlock, h.inodes, update_self, createdInode, Inode.directAt_setDirect _ _ _ (by omega),
    if_pos rfl, toNat_ofNat_of_lt hwf.blocks.numBlocks_lt hb.2.1, h.disk b hb.1, if_neg hne, if_pos rfl]

theorem Created.entry (hwf : Wf s) (h : Created c mode p j n name fresh s s') {d k : ℕ}
    (hd : s.AllocDir d) : s'.entry d k =
      if d = p ∧ k = j then newDirent name mode n else s.entry d k := by
  rw [FS.entry, h.dirBlock hwf hd]
  by_cases hdp : d = p
  · subst hdp
    rw [if_pos rfl]
    rcases eq_or_ne k j with rfl | hk
    · rw [if_pos ⟨rfl, rfl⟩, Block.dirent_setDirent_self _ _ h.slot_lt]
    · rw [if_neg (fun h' => hk h'.2), Block.dirent_setDirent_of_ne _ _ hk, FS.entry]
  · rw [if_neg hdp, if_neg (fun h' => hdp h'.1), FS.entry]

theorem Created.entry_self (hwf : Wf s) (h : Created c mode p j n name fresh s s')
    (hmode : sIsDir mode = true) (k : ℕ) : s'.entry n k = Dirent.zero := by
  rw [FS.entry, h.dirBlock_self hwf hmode, Block.dirent_zero]

/-- The edges of the next state: the old ones and the new one. -/
theorem Created.edge_iff (hwf : Wf s) (h : Created c mode p j n name fresh s s') (d k i : ℕ) :
    s'.Edge d k i ↔ s.Edge d k i ∨ d = p ∧ k = j ∧ i = n := by
  constructor
  · rintro ⟨hd, hk, hv, hi⟩
    rcases (h.allocDir_iff d).1 hd with hd | ⟨rfl, hmode⟩
    · rw [h.entry hwf hd] at hv hi
      split at hi
      · next h' =>
        rw [newDirent_inode _ _ h.inode_lt] at hi
        exact Or.inr ⟨h'.1, h'.2, hi.symm⟩
      · next h' =>
        rw [if_neg h'] at hv
        exact Or.inl ⟨hd, hk, hv, hi⟩
    · rw [h.entry_self hwf hmode] at hv
      exact absurd hv Bool.false_ne_true
  · rintro (⟨hd, hk, hv, hi⟩ | ⟨rfl, rfl, rfl⟩)
    · have hne : ¬ (d = p ∧ k = j) := by
        rintro ⟨rfl, rfl⟩
        exact Bool.false_ne_true (h.slot_free.symm.trans hv)
      refine ⟨(h.allocDir_iff d).2 (Or.inl hd), hk, ?_, ?_⟩ <;> rw [h.entry hwf hd, if_neg hne]
      · exact hv
      · exact hi
    · refine ⟨(h.allocDir_iff d).2 (Or.inl h.parent), h.slot_lt, ?_, ?_⟩ <;>
        rw [h.entry hwf h.parent, if_pos ⟨rfl, rfl⟩]
      · rfl
      · exact newDirent_inode _ _ h.inode_lt

/-- The blocks of the files are left alone. -/
theorem Created.disk_of_file (hwf : Wf s) (h : Created c mode p j n name fresh s s') {k b : ℕ} {σ : Slot}
    (hf : s.isDir k = false) (hb : s.owner (k, σ) = some b) : s'.disk b = s.disk b := by
  have huse := hwf.sound.used hb
  have hkp : k ≠ p := by
    rintro rfl
    exact Bool.false_ne_true (hf.symm.trans h.parent.2)
  rw [h.disk b huse.1, if_neg (hwf.dirBlock_ne h.parent hkp hb).symm, if_neg]
  exact fun hfresh => (h.fresh_free _ hfresh).not_inUse huse

/-- What an inode references stays. -/
theorem Created.refers (hwf : Wf s) (h : Created c mode p j n name fresh s s') {k : ℕ}
    (hk : s.inodeMap k = true) : s'.refers k = s.refers k := by
  have hkn := h.ne_of_alloc hk
  have hino : s'.inodes k = s.inodes k := by rw [h.inodes, update_of_ne hkn]
  exact refers_congr (h.isDir_of_ne hkn) (by rw [hino]) (by rw [hino]) (by rw [hino])
    fun hf _ _ hb => h.disk_of_file hwf hf (owner_eq_some.2 ⟨hk, hb⟩)

/-- The next state's references: the old ones, and the block of a new directory. -/
theorem Created.owner_cases (hwf : Wf s) (h : Created c mode p j n name fresh s s') {x : ℕ × Slot}
    {b : ℕ} (hx : s'.owner x = some b) :
    s.owner x = some b ∨ x = (n, .direct 0) ∧ fresh = some b := by
  obtain ⟨k, σ⟩ := x
  obtain ⟨hk, hr⟩ := owner_eq_some.1 hx
  rcases (h.inodeMap_iff k).1 hk with hk | rfl
  · exact Or.inl (owner_eq_some.2 ⟨hk, h.refers hwf hk ▸ hr⟩)
  · refine Or.inr ?_
    cases fresh with
    | none =>
      have hf : s'.isDir k = false := h.isDir_self.trans h.fresh_isSome.symm
      have hnone := (refers_eq_some_of_file hf).1 hr
      rw [h.inodes, update_self, createdInode, (newInode_empty mode _).pointer] at hnone
      exact absurd rfl hnone.1
    | some b' =>
      have hd : s'.isDir k = true := h.isDir_self.trans h.fresh_isSome.symm
      rw [FS.refers, if_pos hd] at hr
      split at hr
      · next hσ =>
        rw [h.inodes, update_self, createdInode, Inode.directAt_setDirect _ _ _ (by omega), if_pos rfl,
          toNat_ofNat_of_lt hwf.blocks.numBlocks_lt (h.fresh_free b' rfl).2.1] at hr
        exact ⟨by rw [hσ], hr⟩
      · exact absurd hr (by simp)

/-- Every reference of a state with a new entry: the old ones, and the block of a new
directory. -/
theorem Created.owner_of (hwf : Wf s) (h : Created c mode p j n name fresh s s') {x : ℕ × Slot} {b : ℕ}
    (hx : s.owner x = some b ∨ x = (n, .direct 0) ∧ fresh = some b) : s'.owner x = some b := by
  obtain ⟨k, σ⟩ := x
  rcases hx with hx | ⟨hx, hfresh⟩
  · obtain ⟨hk, hr⟩ := owner_eq_some.1 hx
    exact owner_eq_some.2 ⟨(h.inodeMap_iff k).2 (Or.inl hk), (h.refers hwf hk).symm ▸ hr⟩
  · obtain ⟨rfl, rfl⟩ := Prod.mk.inj hx
    have hd : s'.isDir k = true := h.isDir_self.trans (h.fresh_isSome.symm.trans (by rw [hfresh]; rfl))
    refine owner_eq_some.2 ⟨(h.inodeMap_iff k).2 (Or.inr rfl), ?_⟩
    rw [refers_of_isDir hd, h.inodes, update_self, hfresh, createdInode,
      Inode.directAt_setDirect _ _ _ (by omega), if_pos rfl,
      toNat_ofNat_of_lt hwf.blocks.numBlocks_lt (h.fresh_free b hfresh).2.1]

theorem Created.sound (hwf : Wf s) (h : Created c mode p j n name fresh s s') :
    Sound s'.owner s'.InUse := by
  have hused : ∀ b, s.InUse b → s'.InUse b := fun b hb =>
    ⟨hb.1, hb.2.1, by rw [h.blockMap, hb.2.2, Bool.true_or]⟩
  cases hfresh : fresh with
  | none =>
    refine hwf.sound.release (fun x b hx => ?_) fun _ b _ hb => hused b hb
    rcases h.owner_cases hwf hx with hx | ⟨-, hb⟩
    · exact hx
    · exact absurd (hfresh.symm.trans hb) (by simp)
  | some f =>
    have hf := h.fresh_free f hfresh
    refine hwf.sound.attach (x := (n, .direct 0)) hf.not_inUse (fun x b hx => ?_) hused
      ⟨hf.1, hf.2.1, by rw [h.blockMap, hfresh, beq_self_eq_true, Bool.or_true]⟩
    exact (h.owner_cases hwf hx).imp_right fun hb =>
      ⟨hb.1, Option.some.inj (hb.2.symm.trans hfresh)⟩

theorem Created.tree (hwf : Wf s) (h : Created c mode p j n name fresh s s') :
    LabelledTree s'.Node (fun i => s'.isDir i = true) 1 s'.Edge := by
  have hn2 := h.two_le hwf
  refine hwf.tree.insert (n := n) (p := p) (i := j) ?_ ⟨h.parent.1, (hwf.pos_of_allocDir h.parent).ne'⟩
    h.parent.2 ?_ ?_ ?_ (fun d k i => h.edge_iff hwf d k i)
  · exact fun hn => h.ne_of_alloc hn.1 rfl
  · exact fun i he => Bool.false_ne_true (h.slot_free.symm.trans he.2.2.1)
  · intro x
    rw [Node, Node, h.inodeMap_iff]
    constructor
    · rintro ⟨hx | rfl, h0⟩
      · exact Or.inl ⟨hx, h0⟩
      · exact Or.inr rfl
    · rintro (⟨hx, h0⟩ | rfl)
      · exact ⟨Or.inl hx, h0⟩
      · exact ⟨Or.inr rfl, by omega⟩
  · intro x hx
    rw [h.isDir_of_ne (h.ne_of_alloc hx.1)]

theorem Wf.created (hwf : Wf s) (h : Created c mode p j n name fresh s s') : Wf s' := by
  have hn2 := h.two_le hwf
  have h0 : s'.isDir 0 = false := (h.isDir_of_ne (by omega)).trans hwf.isDir_zero
  refine ⟨hwf.numBlocks_le_bits, hwf.numBlocks_le_nblks, hwf.bits_pos,
    (h.inodeMap_iff 0).2 (Or.inl hwf.bit_zero), (h.inodeMap_iff 1).2 (Or.inl hwf.bit_one),
    (h.isDir_of_ne (by omega)).trans hwf.root_isDir, ?_, ?_,
    fun k hk hb => named_once_of_tree (h.tree hwf) hk hb,
    fun d hd => reachable_of_tree (h.tree hwf) h0 hd, h.sound hwf, ?_, ?_⟩
  · intro d k i he
    rcases (h.edge_iff hwf d k i).1 he with he | ⟨-, -, rfl⟩
    · exact ⟨(h.inodeMap_iff i).2 (Or.inl (hwf.edge_child he).1), (hwf.edge_child he).2⟩
    · exact ⟨(h.inodeMap_iff i).2 (Or.inr rfl), hn2, by have := h.inode_lt; omega⟩
  · intro d k i he
    rcases (h.edge_iff hwf d k i).1 he with he' | ⟨rfl, rfl, rfl⟩
    · have hne : ¬ (d = p ∧ k = j) := by
        rintro ⟨rfl, rfl⟩
        exact Bool.false_ne_true (h.slot_free.symm.trans he'.2.2.1)
      rw [h.entry hwf he'.1, if_neg hne, h.isDir_of_ne (h.ne_of_alloc (hwf.edge_child he').1)]
      exact hwf.edge_isDir he'
    · rw [h.entry hwf h.parent, if_pos ⟨rfl, rfl⟩, h.isDir_self]
      rfl
  · intro d k hd hk
    rcases (h.allocDir_iff d).1 hd with hd | ⟨rfl, hmode⟩
    · rw [h.entry hwf hd]
      split
      · exact (newDirent_holds mode n).nul (by have := h.fits.length_le; omega)
      · exact hwf.name_nul d k hd hk
    · rw [h.entry_self hwf hmode, Dirent.nameByte, dif_pos (by omega)]
      rfl
  · -- the new entry stands behind valid entries only, and no entry carries its number
    intro d a k hd hak hk hv
    rcases (h.allocDir_iff d).1 hd with hd | ⟨rfl, hmode⟩
    · have hnum : ∀ {m}, m < 32 → (s.entry d m).valid = true → (s.entry d m).inode.toNat ≠ n :=
        fun hm hmv => h.ne_of_alloc (hwf.edge_child ⟨hd, hm, hmv, rfl⟩).1
      have hnew := newDirent_inode name mode h.inode_lt
      rw [h.entry hwf hd] at hv
      rw [h.entry hwf hd, h.entry hwf hd]
      by_cases hkj : d = p ∧ k = j
      · obtain ⟨rfl, rfl⟩ := hkj
        rw [if_neg (by omega), if_pos ⟨rfl, rfl⟩]
        intro heq
        exact hnum (by omega) (h.slot_first a hak) (heq ▸ hnew)
      · rw [if_neg hkj] at hv ⊢
        split
        · intro heq
          exact hnum hk hv (heq ▸ hnew)
        · exact hwf.slot_order d a k hd hak hk hv
    · rw [h.entry_self hwf hmode] at hv
      exact absurd hv Bool.false_ne_true

end Created

/-! ## Removing -/

section Removed

variable {p j i : ℕ} {e : Dirent}

theorem Removed.two_le (hwf : Wf s) (h : Removed p j i e s s') : 2 ≤ i := (hwf.edge_child h.edge).2.1

theorem Removed.inodeMap_iff (h : Removed p j i e s s') (k : ℕ) :
    s'.inodeMap k = true ↔ s.inodeMap k = true ∧ k ≠ i := by
  rw [h.inodeMap, update_apply]
  by_cases hk : k = i <;> simp [hk]

theorem Removed.isDir_of_ne (h : Removed p j i e s s') {k : ℕ} (hk : k ≠ i) :
    s'.isDir k = s.isDir k := by
  rw [isDir, h.inodes k hk, isDir]

theorem Removed.allocDir_iff (h : Removed p j i e s s') (d : ℕ) :
    s'.AllocDir d ↔ s.AllocDir d ∧ d ≠ i := by
  rw [AllocDir, h.inodeMap_iff, AllocDir]
  constructor
  · rintro ⟨⟨h1, h2⟩, h3⟩
    exact ⟨⟨h1, (h.isDir_of_ne h2).symm.trans h3⟩, h2⟩
  · rintro ⟨⟨h1, h2⟩, h3⟩
    exact ⟨⟨h1, h3⟩, (h.isDir_of_ne h3).trans h2⟩

theorem Removed.dirBlock (hwf : Wf s) (h : Removed p j i e s s') {d : ℕ} (hd : s.AllocDir d)
    (hdi : d ≠ i) :
    s'.dirBlock d = if d = p then (s.dirBlock p).setDirent j e else s.dirBlock d := by
  rw [FS.dirBlock, h.inodes d hdi, h.disk _ (hwf.dirBlock_inUse hd).1]
  by_cases hdp : d = p
  · rw [hdp, if_pos rfl, if_pos rfl]
  · rw [if_neg (fun hb => hdp (hwf.dirBlock_inj hd h.edge.1 hb)), if_neg hdp, FS.dirBlock]

theorem Removed.entry (hwf : Wf s) (h : Removed p j i e s s') {d k : ℕ} (hd : s.AllocDir d)
    (hdi : d ≠ i) : s'.entry d k = if d = p ∧ k = j then e else s.entry d k := by
  rw [FS.entry, h.dirBlock hwf hd hdi]
  by_cases hdp : d = p
  · subst hdp
    rw [if_pos rfl]
    rcases eq_or_ne k j with rfl | hk
    · rw [if_pos ⟨rfl, rfl⟩, Block.dirent_setDirent_self _ _ h.edge.2.1]
    · rw [if_neg (fun h' => hk h'.2), Block.dirent_setDirent_of_ne _ _ hk, FS.entry]
  · rw [if_neg hdp, if_neg (fun h' => hdp h'.1), FS.entry]

/-- The removed inode names nothing. -/
theorem Removed.not_edge (h : Removed p j i e s s') (k x : ℕ) : ¬ s.Edge i k x := by
  intro he
  exact Bool.false_ne_true ((h.leaf he.1.2 k he.2.1).symm.trans he.2.2.1)

theorem Removed.edge_iff (hwf : Wf s) (h : Removed p j i e s s') (d k x : ℕ) :
    s'.Edge d k x ↔ s.Edge d k x ∧ x ≠ i := by
  constructor
  · rintro ⟨hd, hk, hv, hx⟩
    obtain ⟨hd, hdi⟩ := (h.allocDir_iff d).1 hd
    rw [h.entry hwf hd hdi] at hv hx
    split at hv
    · exact absurd (h.entry_valid.symm.trans hv) Bool.false_ne_true
    · next hne =>
      rw [if_neg hne] at hx
      have he : s.Edge d k x := ⟨hd, hk, hv, hx⟩
      refine ⟨he, ?_⟩
      rintro rfl
      exact hne (hwf.tree.parent_unique he h.edge)
  · rintro ⟨he, hxi⟩
    obtain ⟨hd, hk, hv, hx⟩ := he
    have hdi : d ≠ i := by
      rintro rfl
      exact h.not_edge k x ⟨hd, hk, hv, hx⟩
    have hne : ¬ (d = p ∧ k = j) := by
      rintro ⟨rfl, rfl⟩
      exact hxi (hx.symm.trans h.edge.2.2.2)
    refine ⟨(h.allocDir_iff d).2 ⟨hd, hdi⟩, hk, ?_, ?_⟩ <;> rw [h.entry hwf hd hdi, if_neg hne]
    · exact hv
    · exact hx

theorem Removed.tree (hwf : Wf s) (h : Removed p j i e s s') :
    LabelledTree s'.Node (fun x => s'.isDir x = true) 1 s'.Edge := by
  have hi2 := h.two_le hwf
  refine hwf.tree.erase (n := i) (by omega) (fun k x => h.not_edge k x) ?_ ?_
    (fun d k x => h.edge_iff hwf d k x)
  · intro x
    rw [Node, Node, h.inodeMap_iff]
    tauto
  · intro x _ hx
    rw [h.isDir_of_ne hx]

/-- The blocks of the files are left alone. -/
theorem Removed.disk_of_file (hwf : Wf s) (h : Removed p j i e s s') {k b : ℕ} {σ : Slot}
    (hf : s.isDir k = false) (hb : s.owner (k, σ) = some b) : s'.disk b = s.disk b := by
  have hkp : k ≠ p := by
    rintro rfl
    exact Bool.false_ne_true (hf.symm.trans h.edge.1.2)
  rw [h.disk b (hwf.sound.used hb).1, if_neg (hwf.dirBlock_ne h.edge.1 hkp hb).symm]

/-- What an inode that stays references stays. -/
theorem Removed.owner_of_ne (hwf : Wf s) (h : Removed p j i e s s') {k : ℕ} (hki : k ≠ i) (σ : Slot) :
    s'.owner (k, σ) = s.owner (k, σ) := by
  have hmap : s'.inodeMap k = s.inodeMap k := by rw [h.inodeMap, update_of_ne hki]
  rw [owner, owner, hmap]
  by_cases hk : s.inodeMap k = true
  · rw [if_pos hk, if_pos hk, refers_congr (h.isDir_of_ne hki) (by rw [h.inodes k hki])
      (by rw [h.inodes k hki]) (by rw [h.inodes k hki])
      fun hf _ _ hb => h.disk_of_file hwf hf (owner_eq_some.2 ⟨hk, hb⟩)]
  · rw [if_neg hk, if_neg hk]

/-- What is referenced in the next state was referenced before, by an inode that stays. -/
theorem Removed.owner_of (hwf : Wf s) (h : Removed p j i e s s') {x : ℕ × Slot} {b : ℕ}
    (hx : s'.owner x = some b) : s.owner x = some b ∧ x.1 ≠ i := by
  obtain ⟨k, σ⟩ := x
  have hki := ((h.inodeMap_iff k).1 (owner_eq_some.1 hx).1).2
  exact ⟨h.owner_of_ne hwf hki σ ▸ hx, hki⟩

theorem Removed.sound (hwf : Wf s) (h : Removed p j i e s s') : Sound s'.owner s'.InUse := by
  refine hwf.sound.release (fun x b hx => (h.owner_of hwf hx).1) fun x b hx hb => ?_
  obtain ⟨hx, hxi⟩ := h.owner_of hwf hx
  rcases h.blockMap b with hb' | ⟨-, σ, hσ⟩
  · exact ⟨hb.1, hb.2.1, hb'.trans hb.2.2⟩
  · exact absurd (congrArg Prod.fst (hwf.sound.inj hx hσ)) hxi

theorem Wf.removed (hwf : Wf s) (h : Removed p j i e s s') : Wf s' := by
  have hi2 := h.two_le hwf
  have h0 : s'.isDir 0 = false := (h.isDir_of_ne (by omega)).trans hwf.isDir_zero
  refine ⟨hwf.numBlocks_le_bits, hwf.numBlocks_le_nblks, hwf.bits_pos,
    (h.inodeMap_iff 0).2 ⟨hwf.bit_zero, by omega⟩, (h.inodeMap_iff 1).2 ⟨hwf.bit_one, by omega⟩,
    (h.isDir_of_ne (by omega)).trans hwf.root_isDir, ?_, ?_,
    fun k hk hb => named_once_of_tree (h.tree hwf) hk hb,
    fun d hd => reachable_of_tree (h.tree hwf) h0 hd, h.sound hwf, ?_, ?_⟩
  · intro d k x he
    obtain ⟨he, hxi⟩ := (h.edge_iff hwf d k x).1 he
    exact ⟨(h.inodeMap_iff x).2 ⟨(hwf.edge_child he).1, hxi⟩, (hwf.edge_child he).2⟩
  · intro d k x he
    obtain ⟨hd, hdi⟩ := (h.allocDir_iff d).1 he.1
    obtain ⟨he', hxi⟩ := (h.edge_iff hwf d k x).1 he
    have hne : ¬ (d = p ∧ k = j) := by
      rintro ⟨rfl, rfl⟩
      exact hxi (he'.2.2.2.symm.trans h.edge.2.2.2)
    rw [h.entry hwf hd hdi, if_neg hne, h.isDir_of_ne hxi]
    exact hwf.edge_isDir he'
  · intro d k hd hk
    obtain ⟨hd, hdi⟩ := (h.allocDir_iff d).1 hd
    rw [h.entry hwf hd hdi]
    split
    · exact h.entry_nul
    · exact hwf.name_nul d k hd hk
  · -- the cleared slot carries zero or the removed inode, and no valid entry does
    intro d a k hd hak hk hv
    obtain ⟨hd, hdi⟩ := (h.allocDir_iff d).1 hd
    rw [h.entry hwf hd hdi] at hv
    rw [h.entry hwf hd hdi, h.entry hwf hd hdi]
    split at hv
    · exact absurd (h.entry_valid.symm.trans hv) Bool.false_ne_true
    next hkj =>
    rw [if_neg hkj]
    split
    · next haj =>
      obtain ⟨rfl, rfl⟩ := haj
      have hedge : s.Edge d k (s.entry d k).inode.toNat := ⟨hd, hk, hv, rfl⟩
      intro heq
      rcases h.entry_inode with h0 | h0
      · have := (hwf.edge_child hedge).2.1
        rw [← heq, h0] at this
        exact absurd this (by decide)
      · have hnum : (s.entry d k).inode.toNat = i := by rw [← heq, h0, h.edge.2.2.2]
        rw [hnum] at hedge
        have := (hwf.tree.parent_unique hedge h.edge).2
        omega
    · exact hwf.slot_order d a k hd hak hk hv

end Removed

/-! ## Truncating -/

section Truncated

variable {i : ℕ}

/-- The file still holds what it held, but for direct blocks. -/
theorem Truncated.pointer (hwf : Wf s) (hi : s.inodeMap i = true) (hf : s.isDir i = false)
    (h : Truncated i s s') (σ : Slot) : (s'.inodes i).pointer s'.disk σ = 0 ∨
      (s'.inodes i).pointer s'.disk σ = (s.inodes i).pointer s.disk σ := by
  have hword : ∀ {τ : Slot} (k : ℕ),
      tableWord s'.disk ((s.inodes i).pointer s.disk τ) k =
        tableWord s.disk ((s.inodes i).pointer s.disk τ) k := fun {τ} k =>
    tableWord_congr fun hp => h.disk _ (hwf.blocks.pointer_inUse hi hf hp).1
  have houter : ∀ k, tableWord s'.disk (s.inodes i).indir2 k =
      tableWord s.disk (s.inodes i).indir2 k := hword (τ := .indir2)
  cases σ with
  | direct k => exact h.direct k
  | indir1 => exact Or.inr h.indir1
  | level1 k => exact Or.inr (by rw [Inode.pointer, h.indir1]; exact hword (τ := .indir1) k)
  | indir2 => exact Or.inr h.indir2
  | outer k => exact Or.inr (by rw [Inode.pointer, h.indir2]; exact houter k)
  | inner k m =>
    refine Or.inr ?_
    rw [Inode.pointer, h.indir2, houter]
    exact hword (τ := .outer k) m

theorem Truncated.isDir (h : Truncated i s s') (k : ℕ) : s'.isDir k = s.isDir k := by
  rcases eq_or_ne k i with rfl | hk
  · rw [FS.isDir, h.mode, FS.isDir]
  · rw [FS.isDir, h.inodes k hk, FS.isDir]

/-- What another inode references stays. -/
theorem Truncated.owner_of_ne (hwf : Wf s) (h : Truncated i s s') {k : ℕ} (hki : k ≠ i) (σ : Slot) :
    s'.owner (k, σ) = s.owner (k, σ) := by
  rw [owner, owner, h.inodeMap]
  by_cases hk : s.inodeMap k = true
  · rw [if_pos hk, if_pos hk, refers_congr (h.isDir k) (by rw [h.inodes k hki]) (by rw [h.inodes k hki])
      (by rw [h.inodes k hki]) fun _ _ _ hb => h.disk _ (hwf.sound.used (owner_eq_some.2 ⟨hk, hb⟩)).1]
  · rw [if_neg hk, if_neg hk]

/-- What is referenced after a truncation was referenced before. -/
theorem Truncated.owner_of (hwf : Wf s) (hi : s.inodeMap i = true) (hf : s.isDir i = false)
    (h : Truncated i s s') {x : ℕ × Slot} {b : ℕ} (hx : s'.owner x = some b) :
    s.owner x = some b := by
  obtain ⟨k, σ⟩ := x
  rcases eq_or_ne k i with rfl | hki
  · obtain ⟨hne, hb⟩ :=
      (refers_eq_some_of_file ((h.isDir k).trans hf)).1 (owner_eq_some.1 hx).2
    refine owner_eq_some.2 ⟨hi, ?_⟩
    rcases h.pointer hwf hi hf σ with h0 | hsame
    · exact absurd h0 hne
    · exact (refers_eq_some_of_file hf).2 ⟨hsame ▸ hne, hsame ▸ hb⟩
  · rwa [← h.owner_of_ne hwf hki]

/-- The blocks of pointers hold nothing a truncation would free. -/
def NoTables (s : FS g) (i : ℕ) : Prop :=
  (s.inodes i).pointer s.disk (.level1 0) = 0 ∧ (s.inodes i).pointer s.disk (.outer 0) = 0

theorem Truncated.blockMap_of_noTables (h : Truncated i s s') (hno : s.NoTables i) :
    s'.blockMap = s.blockMap := by
  funext b
  rcases h.freed b with hb | ⟨-, -, hne⟩
  · exact hb
  · rcases hne with hne | hne
    · exact absurd hno.1 hne
    · exact absurd hno.2 hne

/-- A truncation that frees nothing leaves a well-formed state. -/
theorem Wf.truncated (hwf : Wf s) (hi : s.inodeMap i = true) (hf : s.isDir i = false)
    (h : Truncated i s s') (hno : s.NoTables i) : Wf s' := by
  refine hwf.relabel (hwf.relabelled_of_dirBlock h.inodeMap (fun k _ => h.isDir k)
    fun d hd => h.dirBlock hwf hf hd) ?_
  refine hwf.sound.release (fun x b hx => h.owner_of hwf hi hf hx) fun x b _ hb => ?_
  rw [InUse, h.blockMap_of_noTables hno]
  exact hb

end Truncated

/-! ## The operations on names -/

variable {path : Path} {r : ℤ}

theorem MknodResult.wf (hwf : Wf s) {mode : UInt32} (h : MknodResult c s path mode r s') : Wf s' := by
  cases h with
  | badPath => exact hwf
  | «exists» => exact hwf
  | noInode => exact hwf
  | noSlot => exact hwf.writeInodeMap
  | noBlock => exact hwf.writeInodeMap
  | created _ h => exact hwf.created h

theorem RmdirResult.wf (hwf : Wf s) (h : RmdirResult s path r s') : Wf s' := by
  cases h with
  | badPath => exact hwf
  | notDir => exact hwf
  | notEmpty => exact hwf
  | removed _ _ _ h => exact hwf.removed h

theorem UnlinkResult.wf (hwf : Wf s) (h : UnlinkResult s path r s') : Wf s' := by
  cases h with
  | badPath => exact hwf
  | isDir => exact hwf
  | removed _ _ _ h => exact hwf.removed h

theorem RenameResult.wf (hwf : Wf s) {dstPath : Path} (h : RenameResult c s path dstPath r s') :
    Wf s' := by
  cases h with
  | badPath => exact hwf
  | otherDir => exact hwf
  | taken => exact hwf
  | renamed _ _ _ _ h => exact hwf.renamed h

/-! ## The inode region -/

theorem Indexed.of_inodeMap (h : Indexed s) (hwf : Wf s')
    (hle : ∀ i, s'.inodeMap i = true → s.inodeMap i = true) : Indexed s' :=
  ⟨hwf, fun i hi => h.inode_lt i (hle i hi)⟩

theorem Indexed.mknod (h : Indexed s) {mode : UInt32} (hr : s.fsMknod c path mode = .ok (r, s')) :
    Indexed s' :=
  ⟨(fsMknod_ok h.toWf hr).wf h.toWf, fun i hi => (fsMknod_inode_lt hr hi).elim (h.inode_lt i) id⟩

theorem Indexed.of_rmdirResult (h : Indexed s) (hr : RmdirResult s path r s') : Indexed s' := by
  refine h.of_inodeMap (hr.wf h.toWf) fun i hi => ?_
  cases hr with
  | badPath => exact hi
  | notDir => exact hi
  | notEmpty => exact hi
  | removed _ _ _ hrem => exact ((hrem.inodeMap_iff i).1 hi).1

theorem Indexed.of_unlinkResult (h : Indexed s) (hr : UnlinkResult s path r s') : Indexed s' := by
  refine h.of_inodeMap (hr.wf h.toWf) fun i hi => ?_
  cases hr with
  | badPath => exact hi
  | isDir => exact hi
  | removed _ _ _ hrem => exact ((hrem.inodeMap_iff i).1 hi).1

theorem Indexed.of_renameResult (h : Indexed s) {dstPath : Path}
    (hr : RenameResult c s path dstPath r s') : Indexed s' := by
  refine h.of_inodeMap (hr.wf h.toWf) fun i hi => ?_
  cases hr with
  | badPath => exact hi
  | otherDir => exact hi
  | taken => exact hi
  | renamed _ _ _ _ hren => rwa [hren.inodeMap] at hi

/-- A change of times and permissions, if it leaves the type alone. -/
theorem TouchResult.wf (hwf : Wf s) {f : Inode → Inode} (h : TouchResult f s path r s')
    (hm : ∀ i, s.resolve 1 path.tokens = .inr i → sIsDir (f (s.inodes i)).mode = s.isDir i)
    (hd : ∀ ino, (f ino).direct = ino.direct) (h1 : ∀ ino, (f ino).indir1 = ino.indir1)
    (h2 : ∀ ino, (f ino).indir2 = ino.indir2) : Wf s' := by
  cases h with
  | badPath => exact hwf
  | touched hr => exact hwf.touch (hm _ hr) (hd _) (h1 _) (h2 _)

end FS

end Fsx600
