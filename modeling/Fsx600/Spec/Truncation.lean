import Fsx600.Spec.Steps
import Fsx600.Model.File

/-!
# What truncating and unlinking do

`fs_truncate` clears direct pointers without freeing their blocks (it clears a pointer
before it passes it to `free_a_block`), and frees what the indirect pointers lead to
without clearing them.  So all it does to the bitmaps is to clear bits of blocks that
the file holds below a block of pointers (`Truncated.freed`), and when both blocks of
pointers start with a zero entry, or are not there, it frees nothing.

`fs_unlink` truncates first and then takes the entry and the inode away, which makes it
a `Removed` like `fs_rmdir`.
-/

namespace Fsx600

open Checked Function

namespace FS

variable {g : Layout} {s s' s'' : FS g} {c : Context} {path : Path} {r : ℤ}

/-! ## Clearing bits of the block map -/

/-- Nothing changes but that bits in `B` are cleared in the block map. -/
structure Freed (B : ℕ → Prop) (s s' : FS g) : Prop where
  inodeMap : s'.inodeMap = s.inodeMap
  inodes : s'.inodes = s.inodes
  disk : s'.disk = s.disk
  trace : s'.trace = s.trace
  blockMap : ∀ b, s'.blockMap b = s.blockMap b ∨ s'.blockMap b = false ∧ B b

theorem Freed.refl (B : ℕ → Prop) (s : FS g) : Freed B s s :=
  ⟨rfl, rfl, rfl, rfl, fun _ => Or.inl rfl⟩

theorem Freed.trans {B : ℕ → Prop} (h : Freed B s s') (h' : Freed B s' s'') : Freed B s s'' where
  inodeMap := h'.inodeMap.trans h.inodeMap
  inodes := h'.inodes.trans h.inodes
  disk := h'.disk.trans h.disk
  trace := h'.trace.trans h.trace
  blockMap := fun b => by
    rcases h'.blockMap b with hb' | hb'
    · rw [hb']
      exact h.blockMap b
    · exact Or.inr hb'

theorem Freed.mono {B C : ℕ → Prop} (h : Freed B s s') (hBC : ∀ b, B b → C b) : Freed C s s' where
  inodeMap := h.inodeMap
  inodes := h.inodes
  disk := h.disk
  trace := h.trace
  blockMap := fun b => (h.blockMap b).imp_right fun hb => ⟨hb.1, hBC b hb.2⟩

theorem freed_of_freeABlock {bit : ℤ} (h : s.freeABlock bit = .ok s') :
    Freed (fun b => (g.startBlock : ℤ) ≤ bit ∧ b = bit.toNat) s s' := by
  obtain rfl := freeABlock_ok h
  split
  · next hb =>
    refine ⟨rfl, rfl, rfl, rfl, fun b => ?_⟩
    rw [blockMap_setBlockBit]
    rcases eq_or_ne b bit.toNat with rfl | hne
    · exact Or.inr ⟨update_self .., hb, rfl⟩
    · exact Or.inl (update_of_ne hne ..)
  · exact Freed.refl _ s

/-- A block named by a nonzero word of `blocks`, when the first word is not zero. -/
def Listed (g : Layout) (blocks : Block) (k b : ℕ) : Prop :=
  blocks.word k ≠ 0 ∧ ∃ m, k ≤ m ∧ blocks.word m ≠ 0 ∧ (g.startBlock : ℤ) ≤ cInt (blocks.word m) ∧
    b = (cInt (blocks.word m)).toNat

theorem freeWords_ok {blocks : Block} {n k : ℕ} (h : freeWords blocks n k s = .ok s') :
    Freed (Listed g blocks k) s s' := by
  induction n generalizing k s with
  | zero =>
    obtain rfl := Except.ok.inj h
    exact Freed.refl _ s
  | succ n ih =>
    rw [freeWords] at h
    split at h
    · obtain rfl := Except.ok.inj h
      exact Freed.refl _ s
    · next hk =>
      rw [bind_eq_ok] at h
      obtain ⟨t, ht, h⟩ := h
      refine ((freed_of_freeABlock ht).mono fun b hb => ?_).trans ((ih h).mono fun b hb => ?_)
      · exact ⟨hk, k, le_rfl, hk, hb⟩
      · obtain ⟨-, m, hm, hb⟩ := hb
        exact ⟨hk, m, by omega, hb⟩

/-- A block named in a block of pointers to level-1 blocks, or in one of these. -/
def ListedBelow (g : Layout) (disk : ℕ → Block) (blocks : Block) (k b : ℕ) : Prop :=
  blocks.word k ≠ 0 ∧ ∃ m, k ≤ m ∧ blocks.word m ≠ 0 ∧ (g.startBlock : ℤ) ≤ cInt (blocks.word m) ∧
    (b = (cInt (blocks.word m)).toNat ∨ Listed g (disk (blocks.word m).toNat) 0 b)

theorem freeTables_ok {blocks : Block} {n k : ℕ} (h : freeTables blocks n k s = .ok s') :
    Freed (ListedBelow g s.disk blocks k) s s' := by
  induction n generalizing k s with
  | zero =>
    obtain rfl := Except.ok.inj h
    exact Freed.refl _ s
  | succ n ih =>
    rw [freeTables] at h
    split at h
    · obtain rfl := Except.ok.inj h
      exact Freed.refl _ s
    next hk =>
    split at h
    · next hge =>
      rw [bind_eq_ok] at h
      obtain ⟨inner, hinner, h⟩ := h
      obtain ⟨-, rfl⟩ := readBlock_ok hinner
      rw [bind_eq_ok] at h
      obtain ⟨t, ht, h⟩ := h
      rw [bind_eq_ok] at h
      obtain ⟨u, hu, h⟩ := h
      have hst := freeWords_ok ht
      have htu := freed_of_freeABlock hu
      have hdisk : u.disk = s.disk := htu.disk.trans hst.disk
      refine (hst.mono fun b hb => ?_).trans ((htu.mono fun b hb => ?_).trans
        ((ih h).mono fun b hb => ?_))
      · exact ⟨hk, k, le_rfl, hk, hge, Or.inr hb⟩
      · exact ⟨hk, k, le_rfl, hk, hge, Or.inl hb.2⟩
      · rw [hdisk] at hb
        obtain ⟨-, m, hm, hb⟩ := hb
        exact ⟨hk, m, by omega, hb⟩
    · exact ih h

/-! ## Truncation -/

/-- What `fs_truncate` does to the file `i`. -/
structure Truncated (i : ℕ) (s s' : FS g) : Prop where
  inodeMap : s'.inodeMap = s.inodeMap
  inodes : ∀ k, k ≠ i → s'.inodes k = s.inodes k
  mode : (s'.inodes i).mode = (s.inodes i).mode
  size : (s'.inodes i).size = 0
  direct : ∀ k, (s'.inodes i).directAt k = 0 ∨ (s'.inodes i).directAt k = (s.inodes i).directAt k
  indir1 : (s'.inodes i).indir1 = (s.inodes i).indir1
  indir2 : (s'.inodes i).indir2 = (s.inodes i).indir2
  freed : ∀ b, s'.blockMap b = s.blockMap b ∨ s'.blockMap b = false ∧
    (∃ σ : Slot, σ.IsEntry ∧ s.refers i σ = some b) ∧ ((s.inodes i).pointer s.disk (.level1 0) ≠ 0 ∨
      (s.inodes i).pointer s.disk (.outer 0) ≠ 0)
  disk : ∀ x, g.startBlock ≤ x → s'.disk x = s.disk x
  trace : s'.trace = s.trace

/-- The ways `fs_truncate` returns. -/
inductive TruncateResult (s : FS g) (path : Path) (len : ℤ) : ℤ → FS g → Prop
  | badLength (h : len ≠ 0) : TruncateResult s path len (-EINVAL) s
  | badPath {e : ℤ} (hr : s.resolve 1 path.tokens = .inl e) : TruncateResult s path len e s
  | isDir {i : ℕ} (hr : s.resolve 1 path.tokens = .inr i) (hd : s.isDir i = true) :
      TruncateResult s path len (-EISDIR) s
  | truncated {i : ℕ} {s' : FS g} (hlen : len = 0) (hr : s.resolve 1 path.tokens = .inr i)
      (hd : s.isDir i = false)
      (h : Truncated i s s') : TruncateResult s path len 0 s'

theorem cInt_zero : cInt 0 = 0 := by
  rw [cInt_of_lt (by decide)]
  rfl

/-- The first loop clears direct pointers and frees nothing. -/
theorem truncDirect_ok {n k : ℕ} {ino ino' : Inode} (hnk : n + k = 6)
    (h : truncDirect n k s ino = .ok (s', ino')) :
    s' = s ∧ ino'.mode = ino.mode ∧ ino'.indir1 = ino.indir1 ∧ ino'.indir2 = ino.indir2 ∧
      ∀ m, ino'.directAt m = 0 ∨ ino'.directAt m = ino.directAt m := by
  induction n generalizing k s ino with
  | zero =>
    obtain ⟨rfl, rfl⟩ := Prod.mk.inj (Except.ok.inj h)
    exact ⟨rfl, rfl, rfl, rfl, fun _ => Or.inr rfl⟩
  | succ n ih =>
    rw [truncDirect] at h
    split at h
    · obtain ⟨rfl, rfl⟩ := Prod.mk.inj (Except.ok.inj h)
      exact ⟨rfl, rfl, rfl, rfl, fun _ => Or.inr rfl⟩
    · rw [bind_eq_ok] at h
      obtain ⟨t, ht, h⟩ := h
      have hpos := g.startBlock_pos
      obtain rfl := freeABlock_ok ht
      rw [Inode.directAt_setDirect _ _ _ (by omega), if_pos rfl, cInt_zero, if_neg (by omega)] at h
      obtain ⟨rfl, hm, h1, h2, hd⟩ := ih (by omega) h
      refine ⟨rfl, hm, h1, h2, fun m => ?_⟩
      rcases hd m with hd | hd
      · exact Or.inl hd
      · rw [Inode.directAt_setDirect _ _ _ (by omega)] at hd
        split at hd
        · exact Or.inl hd
        · exact Or.inr hd

/-- The pointers of an allocated file are blocks in use. -/
theorem SoundBlocks.pointer_inUse (h : s.SoundBlocks) {i : ℕ} {σ : Slot} (hi : s.inodeMap i = true)
    (hf : s.isDir i = false) (hp : (s.inodes i).pointer s.disk σ ≠ 0) :
    s.InUse ((s.inodes i).pointer s.disk σ).toNat :=
  h.sound.used (owner_eq_some.2 ⟨hi, (refers_eq_some_of_file hf).2 ⟨hp, rfl⟩⟩)

/-- What a pointer of an allocated file names, read as an `int` and freed, is a block
the file references. -/
theorem SoundBlocks.refers_of_listed (h : s.SoundBlocks) {i b : ℕ} {σ : Slot} {w : UInt32}
    (hi : s.inodeMap i = true) (hf : s.isDir i = false) (hw : (s.inodes i).pointer s.disk σ = w)
    (hw0 : w ≠ 0) (hb : b = (cInt w).toNat) : s.refers i σ = some b := by
  subst hw
  rw [cInt_of_inUse h.numBlocks_lt (h.pointer_inUse hi hf hw0), Int.toNat_natCast] at hb
  exact (refers_eq_some_of_file hf).2 ⟨hw0, hb.symm⟩

theorem truncIndir1_ok (hs : s.SoundBlocks) {i : ℕ} (hi : s.inodeMap i = true) (hf : s.isDir i = false)
    {ino : Inode} (h1 : ino.indir1 = (s.inodes i).indir1) (h : s.truncIndir1 ino = .ok s') :
    Freed (fun b => (∃ σ : Slot, σ.IsEntry ∧ s.refers i σ = some b) ∧ (s.inodes i).pointer s.disk (.level1 0) ≠ 0)
      s s' := by
  rw [truncIndir1, h1] at h
  split at h
  · next hge =>
    have hne : (s.inodes i).indir1 ≠ 0 := ne_zero_of_startBlock_le hge
    rw [bind_eq_ok] at h
    obtain ⟨blocks, hblocks, h⟩ := h
    obtain ⟨-, rfl⟩ := readBlock_ok hblocks
    refine (freeWords_ok h).mono fun b hb => ?_
    obtain ⟨h0, m, -, hm, -, hb⟩ := hb
    exact ⟨⟨.level1 m, trivial, hs.refers_of_listed hi hf (tableWord_of_ne_zero hne m) hm hb⟩,
      fun h => h0 ((tableWord_of_ne_zero hne 0).symm.trans h)⟩
  · obtain rfl := Except.ok.inj h
    exact Freed.refl _ s

theorem truncIndir2_ok (hs : s.SoundBlocks) {i : ℕ} (hi : s.inodeMap i = true) (hf : s.isDir i = false)
    {t : FS g} (hdisk : t.disk = s.disk) {ino : Inode} (h2 : ino.indir2 = (s.inodes i).indir2)
    (h : t.truncIndir2 ino = .ok s') :
    Freed (fun b => (∃ σ : Slot, σ.IsEntry ∧ s.refers i σ = some b) ∧ (s.inodes i).pointer s.disk (.outer 0) ≠ 0)
      t s' := by
  rw [truncIndir2, h2] at h
  split at h
  · next hge =>
    have hne : (s.inodes i).indir2 ≠ 0 := ne_zero_of_startBlock_le hge
    rw [bind_eq_ok] at h
    obtain ⟨blocks, hblocks, h⟩ := h
    obtain ⟨-, rfl⟩ := readBlock_ok hblocks
    refine (freeTables_ok h).mono fun b hb => ?_
    rw [hdisk] at hb
    obtain ⟨h0, m, -, hm, -, hb⟩ := hb
    have houter : ∀ k, tableWord s.disk (s.inodes i).indir2 k =
        (s.disk (s.inodes i).indir2.toNat).word k := tableWord_of_ne_zero hne
    refine ⟨?_, fun h => h0 ((houter 0).symm.trans h)⟩
    rcases hb with hb | ⟨-, m', -, hm', -, hb⟩
    · exact ⟨.outer m, trivial, hs.refers_of_listed hi hf (houter m) hm hb⟩
    · refine ⟨.inner m m', trivial, hs.refers_of_listed hi hf ?_ hm' hb⟩
      rw [Inode.pointer, houter m, tableWord_of_ne_zero hm]
  · obtain rfl := Except.ok.inj h
    exact Freed.refl _ t

theorem fsTruncate_ok (hs : s.SoundBlocks)
    (ha : ∀ i, s.resolve 1 path.tokens = .inr i → s.inodeMap i = true) {len : ℤ}
    (h : s.fsTruncate path len = .ok (r, s')) : TruncateResult s path len r s' := by
  rw [fsTruncate] at h
  split at h
  · next hlen =>
    obtain ⟨rfl, rfl⟩ := Prod.mk.inj (Except.ok.inj h)
    exact .badLength hlen
  next hlen =>
  rw [bind_eq_ok] at h
  obtain ⟨o, ho, h⟩ := h
  rcases fsGetattr_ok ho with ⟨e, hr, rfl⟩ | ⟨i, hr, rfl⟩
  · obtain ⟨rfl, rfl⟩ := Prod.mk.inj (Except.ok.inj h)
    exact .badPath hr
  dsimp only [fsSetSuperbockAttrs] at h
  rw [bind_eq_ok] at h
  obtain ⟨ino, hino, h⟩ := h
  obtain ⟨-, -, rfl⟩ := inode_ok hino
  rw [Int.toNat_natCast] at h
  split at h
  · next hd =>
    obtain ⟨rfl, rfl⟩ := Prod.mk.inj (Except.ok.inj h)
    exact .isDir hr hd
  next hd =>
  have hf : s.isDir i = false := Bool.of_not_eq_true hd
  have hi := ha i hr
  rw [bind_eq_ok] at h
  obtain ⟨⟨t, ino⟩, ht, h⟩ := h
  obtain ⟨rfl, hm, h1, h2, hdirect⟩ := truncDirect_ok rfl ht
  dsimp only at h
  rw [bind_eq_ok] at h
  obtain ⟨u, hu, h⟩ := h
  rw [bind_eq_ok] at h
  obtain ⟨v, hv, h⟩ := h
  obtain ⟨rfl, rfl⟩ := Prod.mk.inj (Except.ok.inj h)
  have hsu := truncIndir1_ok hs hi hf h1 hu
  have huv := truncIndir2_ok hs hi hf hsu.disk h2 hv
  have hsv := (hsu.mono (C := fun b => (∃ σ : Slot, σ.IsEntry ∧ t.refers i σ = some b) ∧
      ((t.inodes i).pointer t.disk (.level1 0) ≠ 0 ∨ (t.inodes i).pointer t.disk (.outer 0) ≠ 0))
    fun b hb => hb.imp_right Or.inl).trans (huv.mono fun b hb => hb.imp_right Or.inr)
  refine .truncated (not_not.mp hlen) hr hf ⟨hsv.inodeMap, fun k hk => ?_, ?_, ?_, fun k => ?_, ?_, ?_,
    hsv.blockMap, fun x hx => ?_, hsv.trace⟩
  · rw [inodes_writeAllInodes, inodes_setInode, update_of_ne hk, inodes_writeBlockMap, hsv.inodes]
  · rw [inodes_writeAllInodes, inodes_setInode, update_self]
    exact hm
  · rw [inodes_writeAllInodes, inodes_setInode, update_self]
  · rw [inodes_writeAllInodes, inodes_setInode, update_self]
    exact hdirect k
  · rw [inodes_writeAllInodes, inodes_setInode, update_self]
    exact h1
  · rw [inodes_writeAllInodes, inodes_setInode, update_self]
    exact h2
  · rw [disk_writeAllInodes _ hx, disk_setInode, disk_writeBlockMap _ hx, hsv.disk]

theorem Wf.fsTruncate_ok (hwf : Wf s) {len : ℤ} (h : s.fsTruncate path len = .ok (r, s')) :
    TruncateResult s path len r s' :=
  FS.fsTruncate_ok hwf.blocks (fun _ => hwf.alloc_of_resolve) h

/-- Truncating a file leaves the directories alone. -/
theorem Truncated.dirBlock (hwf : Wf s) {i : ℕ} (hf : s.isDir i = false) (h : Truncated i s s') {d : ℕ}
    (hd : s.AllocDir d) : s'.dirBlock d = s.dirBlock d := by
  have hdi : d ≠ i := by
    rintro rfl
    exact Bool.false_ne_true (hf.symm.trans hd.2)
  rw [FS.dirBlock, FS.dirBlock, h.inodes d hdi, h.disk _ (hwf.dirBlock_inUse hd).1]

/-! ## Unlinking -/

/-- The loop of `fs_unlink` finds the entry that a lookup by name finds. -/
theorem unlinkLoop_ok {block : Block} {last : Name} {j n k : ℕ} {o : UnlinkScan}
    (hj : findEntry block last = some j) (hd : (block.dirent j).isDir = false)
    (hbit : s.inodeMap (block.dirent j).inode.toNat = true) (hk : k ≤ j) (hnk : n + k = 32)
    (h : s.unlinkLoop block last n k = .ok o) :
    o = .found j (block.dirent j).inode.toNat (s.inodes (block.dirent j).inode.toNat) := by
  obtain ⟨hj32, hname, hvalid, hfirst⟩ := findEntry_eq_some hj
  induction n generalizing k with
  | zero => omega
  | succ n ih =>
    rw [unlinkLoop] at h
    rcases Nat.eq_or_lt_of_le hk with rfl | hlt
    · rw [if_pos (by simp [hname, hvalid]), if_neg (by simp [hd]), bind_eq_ok] at h
      obtain ⟨ino, hino, h⟩ := h
      obtain ⟨-, -, rfl⟩ := inode_ok hino
      rw [bind_eq_ok] at h
      obtain ⟨bit, hb, h⟩ := h
      rw [inodeBit, guard_eq_ok] at hb
      obtain rfl := Except.ok.inj hb.2
      rw [if_pos hbit] at h
      exact (Except.ok.inj h).symm
    · rw [if_neg] at h
      · exact ih (by omega) (by omega) h
      · intro hvn
        rw [Bool.and_eq_true] at hvn
        exact Bool.false_ne_true ((hfirst k hlt hvn.2).symm.trans hvn.1)

/-- The ways `fs_unlink` returns. -/
inductive UnlinkResult (s : FS g) (path : Path) : ℤ → FS g → Prop
  | badPath {e : ℤ} (hr : s.resolve 1 path.tokens = .inl e) : UnlinkResult s path e s
  | isDir {i : ℕ} (hr : s.resolve 1 path.tokens = .inr i) (hd : s.isDir i = true) :
      UnlinkResult s path (-EISDIR) s
  | removed {p i j : ℕ} {last : Name} {s' : FS g} (hp : s.Parent path p last)
      (hi : s.child p last = .inr i) (hd : s.isDir i = false)
      (h : Removed p j i { s.entry p j with valid := false } s s') : UnlinkResult s path 0 s'

theorem fsUnlink_ok (hwf : Wf s) (h : s.fsUnlink c path = .ok (r, s')) : UnlinkResult s path r s' := by
  rw [fsUnlink, bind_eq_ok] at h
  obtain ⟨⟨r₁, t⟩, ht, h⟩ := h
  dsimp only at h
  cases hwf.fsTruncate_ok ht with
  | badLength hlen => exact absurd rfl hlen
  | badPath hr =>
    rw [if_pos (error_neg (resolve_error hr))] at h
    obtain ⟨rfl, rfl⟩ := Prod.mk.inj (Except.ok.inj h)
    exact .badPath hr
  | isDir hr hd =>
    rw [if_pos (by decide)] at h
    obtain ⟨rfl, rfl⟩ := Prod.mk.inj (Except.ok.inj h)
    exact .isDir hr hd
  | @truncated i _ _ hr hd htr =>
    rw [if_neg (lt_irrefl _), bind_eq_ok] at h
    obtain ⟨⟨pi, buf⟩, hpi, h⟩ := h
    dsimp only at h
    have hdirs : ∀ d, s.AllocDir d → t.dirBlock d = s.dirBlock d := fun d => htr.dirBlock hwf hd
    obtain ⟨p, last, hp, rfl⟩ : ∃ p last, s.Parent path p last ∧ pi = (p : ℤ) := by
      rcases getParentInum_ok hpi with ⟨hnil, -⟩ | ⟨last, hlast, hpi', -, -⟩
      · rw [hnil, resolve] at hr
        obtain rfl := Sum.inr.inj hr
        exact absurd (hd.symm.trans hwf.root_isDir) Bool.false_ne_true
      · rw [hwf.walk_congr hdirs hwf.allocDir_one] at hpi'
        cases hw : s.walk 1 path.tokens.dropLast with
        | inl e =>
          rw [← List.dropLast_append_getLast? last hlast, resolve_append, hw] at hr
          exact absurd hr (by simp)
        | inr p => exact ⟨p, last, ⟨hw, hlast⟩, by rw [hpi', hw, code_inr]⟩
    have hdir := hwf.allocDir_of_parent hp
    have hchild : s.child p last = .inr i := hp.resolve.symm.trans hr
    obtain ⟨j, hj, he⟩ := Wf.edge_of_child hdir hchild
    have hpi : p ≠ i := by
      rintro rfl
      exact Bool.false_ne_true (hd.symm.trans hdir.2)
    rw [bind_eq_ok] at h
    obtain ⟨last', hlast', h⟩ := h
    obtain rfl := hp.eq_of_getLastOfSplit hlast'
    rw [bind_eq_ok] at h
    obtain ⟨pino, hpino, h⟩ := h
    obtain ⟨-, -, rfl⟩ := inode_ok hpino
    rw [bind_eq_ok] at h
    obtain ⟨block, hblock, h⟩ := h
    obtain ⟨-, rfl⟩ := readBlock_ok hblock
    rw [Int.toNat_natCast] at h
    change ((t.unlinkLoop (t.dirBlock p) last' 32 0) >>= _) = _ at h
    rw [hdirs p hdir, bind_eq_ok] at h
    obtain ⟨o, ho, h⟩ := h
    have hinode : ((s.dirBlock p).dirent j).inode.toNat = i := he.2.2.2
    have hbit : t.inodeMap i = true := by
      rw [htr.inodeMap]
      exact (hwf.edge_child he).1
    obtain rfl := unlinkLoop_ok hj ((hwf.edge_isDir he).trans hd) (hinode.symm ▸ hbit)
      (Nat.zero_le j) rfl ho
    dsimp only at h
    rw [hinode, bind_eq_ok] at h
    obtain ⟨u, hu, h⟩ := h
    obtain ⟨-, rfl⟩ := writeBlock_ok hu
    obtain ⟨rfl, rfl⟩ := Prod.mk.inj (Except.ok.inj h)
    refine .removed hp hchild hd ⟨he, fun hd' => ?_, rfl, Or.inr rfl, ?_, ?_, fun k hk => ?_, fun b => ?_,
      fun x hx => ?_, ?_⟩
    · exact absurd (hd.symm.trans hd') Bool.false_ne_true
    · exact hwf.name_nul p j hdir he.2.1
    · exact congrArg (update · i false) htr.inodeMap
    · exact (update_of_ne hk ..).trans (htr.inodes k hk)
    · rcases htr.freed b with hb | ⟨hb, ⟨σ, -, hσ⟩, -⟩
      · exact Or.inl hb
      · exact Or.inr ⟨hb, σ, owner_eq_some.2 ⟨(hwf.edge_child he).1, hσ⟩⟩
    · rw [disk_writeInodeMap _ hx, disk_writeAllInodes _ hx, disk_putBlock, disk_setInode,
        disk_setInodeBit, htr.inodes p hpi, htr.disk x hx, htr.disk _ (hwf.dirBlock_inUse hdir).1]
      rfl
    · exact congrArg₂ List.cons (by rw [htr.inodes p hpi]) htr.trace

end FS

end Fsx600
