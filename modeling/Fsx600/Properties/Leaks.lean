import Fsx600.Properties.Allocation

/-!
# Leaked blocks

A block is leaked when it is marked in use and no inode references it.  `fs_truncate` leaks
the direct blocks of a file: its first loop clears a pointer before it frees what the
pointer names, and so frees nothing.  `fs_unlink` calls `fs_truncate` and then drops the
inode, with the blocks of pointers that are left.

* `not_noLeak_of_run`: a file of one byte, unlinked, leaks a block;
* `noLeak_of_run`: a run that unlinks and truncates only files without blocks leaks none.
-/

namespace Fsx600

open Function GuardedRun Mkfs Ownership

namespace FS

variable {g : Layout} {s s' : FS g} {c : Context} {a : Call} {path : Path} {r : ℤ}

/-- A path leads to no file that holds a block. -/
def EmptyFile (s : FS g) (path : Path) : Prop := s.OfFile path fun i => (s.inodes i).Empty

instance (s : FS g) (path : Path) : Decidable (s.EmptyFile path) :=
  inferInstanceAs (Decidable (s.OfFile path _))

/-- The condition on what gives up blocks, and on writes. -/
def LeakSafe (s : FS g) : Call → Prop
  | .unlink path => s.EmptyFile path
  | .truncate path len => len = 0 → s.EmptyFile path
  | .write path _ len offset => s.WriteSafe path len offset
  | _ => True

instance (s : FS g) : (a : Call) → Decidable (s.LeakSafe a)
  | .unlink path => inferInstanceAs (Decidable (s.EmptyFile path))
  | .truncate path len => inferInstanceAs (Decidable (len = 0 → s.EmptyFile path))
  | .write path _ len offset => inferInstanceAs (Decidable (s.WriteSafe path len offset))
  | .mknod _ _ | .mkdir _ _ | .rmdir _ | .rename _ _ | .chmod _ _ | .utime _ _ =>
    inferInstanceAs (Decidable True)

/-- What the calls of a run have to meet. -/
def LeaksGuard (s : FS g) (a : Call) : Prop := a.OnFiles ∧ s.LeakSafe a

instance (s : FS g) (a : Call) : Decidable (s.LeaksGuard a) := inferInstanceAs (Decidable (_ ∧ _))

/-- Every block marked in use is referenced. -/
def NoLeak (s : FS g) : Prop := Covered s.owner s.InUse

/-- A file without blocks references none. -/
theorem owner_of_empty {i : ℕ} (hf : s.isDir i = false) (h : (s.inodes i).Empty) (σ : Slot) :
    s.owner (i, σ) = none := by
  cases hown : s.owner (i, σ) with
  | none => rfl
  | some b =>
    obtain ⟨hne, -⟩ := (refers_eq_some_of_file hf).1 (owner_eq_some.1 hown).2
    exact absurd (h.pointer s.disk σ) hne

theorem NoLeak.congr (h : NoLeak s) (howner : s'.owner = s.owner) (hmap : s'.blockMap = s.blockMap) :
    NoLeak s' := by
  have huse : s'.InUse = s.InUse := by
    funext b
    rw [InUse, InUse, hmap]
  rw [NoLeak, howner, huse]
  exact h

theorem NoLeak.created (h : NoLeak s) (hwf : Wf s) {mode : UInt32} {p j n : ℕ} {name : Name}
    {fresh : Option ℕ} (hc : Created c mode p j n name fresh s s') : NoLeak s' := by
  refine Covered.step h (fun b hb => ?_) fun x b hx _ => ⟨x, hc.owner_of hwf (Or.inl hx)⟩
  obtain ⟨h1, h2, hmap⟩ := hb
  rw [hc.blockMap, Bool.or_eq_true, beq_iff_eq] at hmap
  rcases hmap with hmap | hfresh
  · exact Or.inl ⟨h1, h2, hmap⟩
  · exact Or.inr ⟨_, hc.owner_of hwf (Or.inr ⟨rfl, hfresh⟩)⟩

/-- A removal leaks nothing if it frees all that the inode references. -/
theorem NoLeak.removed (h : NoLeak s) (hwf : Wf s) {p j i : ℕ} {e : Dirent} (hr : Removed p j i e s s')
    (hfree : ∀ σ b, s.owner (i, σ) = some b → s'.blockMap b = false) : NoLeak s' := by
  refine Covered.step h (fun b hb => ?_) fun x b hx hb => ?_
  · obtain ⟨h1, h2, hmap⟩ := hb
    rcases hr.blockMap b with hsame | ⟨hclear, -⟩
    · exact Or.inl ⟨h1, h2, hsame ▸ hmap⟩
    · exact absurd (hclear.symm.trans hmap) Bool.false_ne_true
  · obtain ⟨k, σ⟩ := x
    rcases eq_or_ne k i with rfl | hki
    · exact absurd ((hfree σ b hx).symm.trans hb.2.2) Bool.false_ne_true
    · exact ⟨(k, σ), hr.owner_of_ne hwf hki σ ▸ hx⟩

theorem NoLeak.truncated (h : NoLeak s) (hwf : Wf s) {i : ℕ} (hi : s.inodeMap i = true)
    (hf : s.isDir i = false) (ht : Truncated i s s') (he : (s.inodes i).Empty) : NoLeak s' := by
  refine h.congr ?_ (ht.blockMap_of_noTables ⟨he.pointer _ _, he.pointer _ _⟩)
  funext x
  obtain ⟨k, σ⟩ := x
  rcases eq_or_ne k i with rfl | hki
  · rw [owner_of_empty hf he]
    cases hown : s'.owner (k, σ) with
    | none => rfl
    | some b =>
      have hold := ht.owner_of hwf hi hf hown
      rw [owner_of_empty hf he] at hold
      simp at hold
  · exact ht.owner_of_ne hwf hki σ

theorem NoLeak.mknodResult (h : NoLeak s) (hwf : Wf s) {mode : UInt32}
    (hr : MknodResult c s path mode r s') : NoLeak s' := by
  cases hr with
  | badPath => exact h
  | «exists» => exact h
  | noInode => exact h
  | noSlot => exact h.congr hwf.owner_writeInodeMap rfl
  | noBlock => exact h.congr hwf.owner_writeInodeMap rfl
  | created _ hc => exact h.created hwf hc

/-- `fs_rmdir` gives back the one block of a directory. -/
theorem NoLeak.rmdirResult (h : NoLeak s) (hwf : Wf s) (hr : RmdirResult s path r s') : NoLeak s' := by
  cases hr with
  | badPath => exact h
  | notDir => exact h
  | notEmpty => exact h
  | @removed p i j last _ hp hi hd hrem hfree =>
    refine h.removed hwf hrem fun σ b hb => ?_
    have hrefers := (owner_eq_some.1 hb).2
    rw [refers, if_pos hd] at hrefers
    split at hrefers
    · rw [hfree, ← Option.some.inj hrefers, update_self]
    · simp at hrefers

/-- One call leaks nothing. -/
theorem NoLeak.step (h : NoLeak s) (hwf : Wf s) (hg : s.LeaksGuard a) (hs : s.Step a s') :
    Wf s' ∧ NoLeak s' := by
  obtain ⟨c, r, hs⟩ := hs
  obtain ⟨ha, hg⟩ := hg
  cases a with
  | mknod path mode =>
    have hres := fsMknod_ok hwf hs
    exact ⟨hres.wf hwf, h.mknodResult hwf hres⟩
  | mkdir path mode =>
    have hres := fsMkdir_ok hwf hs
    exact ⟨hres.wf hwf, h.mknodResult hwf hres⟩
  | unlink path =>
    have hres := fsUnlink_ok hwf hs
    refine ⟨hres.wf hwf, ?_⟩
    cases hres with
    | badPath => exact h
    | isDir => exact h
    | removed hp hi hd hrem =>
      refine h.removed hwf hrem fun σ b hb => ?_
      rw [owner_of_empty hd (hg _ (hp.resolve.trans hi) hd)] at hb
      simp at hb
  | rmdir path =>
    have hres := fsRmdir_ok hwf hs
    exact ⟨hres.wf hwf, h.rmdirResult hwf hres⟩
  | rename srcPath dstPath =>
    have hres := fsRename_ok hwf hs
    refine ⟨hres.wf hwf, ?_⟩
    cases hres with
    | badPath => exact h
    | otherDir => exact h
    | taken => exact h
    | renamed _ _ _ _ hren => exact h.congr (hren.owner hwf) hren.blockMap
  | truncate path len =>
    cases hwf.fsTruncate_ok hs with
    | badLength => exact ⟨hwf, h⟩
    | badPath => exact ⟨hwf, h⟩
    | isDir => exact ⟨hwf, h⟩
    | truncated hlen hr hd ht =>
      have hi := hwf.alloc_of_resolve hr
      have he := hg hlen _ hr hd
      exact ⟨hwf.truncated hi hd ht ⟨he.pointer _ _, he.pointer _ _⟩, h.truncated hwf hi hd ht he⟩
  | write path buf len offset =>
    refine (hwf.fsWrite_ok hs).invariant hwf hg h
      (fun _ _ _ _ _ _ _ _ _ hwf' hc hstored => hstored.covered hwf'.blocks hc) fun _ hwf' hc => ?_
    exact hc.congr (hwf'.blocks.owner_touch rfl rfl rfl rfl) rfl
  | chmod | utime => exact ha.elim

/-- **No block is leaked** in a run from a freshly formatted image that gives up no file with
blocks. -/
theorem noLeak_of_run {n : ℕ} (h : Formattable n) (t : UInt32) (s : FS (layout h))
    (hrun : Run Step LeaksGuard (fresh h t) s) : s.NoLeak := by
  have hinv : Wf s ∧ NoLeak s := hrun.invariant (P := fun s => Wf s ∧ NoLeak s)
    ⟨wf_fresh h t, covered_fresh h t⟩ fun _ _ _ hs hg hstep => hs.2.step hs.1 hg hstep
  exact hinv.2

/-- `mknod /a`, `mkdir /d`, a write of 7000 bytes to `/a`, `rmdir /d`, `mknod /b`, `unlink /b`. -/
def keepRun : List Call :=
  [.mknod pathA 0x81A4, .mkdir ⟨[47, 100], by decide⟩ 0x1ED,
    .write pathA (fun _ => 1) 7000 0, .rmdir ⟨[47, 100], by decide⟩, .mknod pathB 0x81A4,
    .unlink pathB]

/-- A run that takes blocks of all kinds but level-1 blocks and gives a directory's back. -/
theorem noLeak_of_keepRun : ∃ s,
    (fresh formattable_256 0).guardedAll ⟨1000, 1000, 0⟩ LeaksGuard keepRun = some s ∧ s.NoLeak := by
  have hend : ((fresh formattable_256 0).guardedAll ⟨1000, 1000, 0⟩ LeaksGuard keepRun).isSome = true := by
    decide +kernel
  obtain ⟨s, hs⟩ := Option.isSome_iff_exists.mp hend
  exact ⟨s, hs, noLeak_of_run formattable_256 0 s (run_of_guardedAll hs)⟩

/-- `mknod /a`, a write of one byte, `unlink /a`. -/
def unlinkRun : List Call :=
  [.mknod pathA 0x81A4, .write pathA (fun _ => 1) 1 0, .unlink pathA]

/-- After these calls block 8 is marked, and the root directory, the one inode left, is in
block 7. -/
theorem not_noLeak_of_run : ¬ ∀ (n : ℕ) (h : Formattable n) (t : UInt32) (s : FS (layout h)),
    64 ≤ (layout h).numInodes → Run Step (fun _ a => a.OnFiles ∧ a.Proper) (fresh h t) s → s.NoLeak := by
  intro hall
  have hend : ((fresh formattable_256 0).guardedAll ⟨1000, 1000, 0⟩
      (fun s a => s.FilesGuard a ∧ a.Proper) unlinkRun).any (fun s => s.blockMap 8 &&
        (s.inodes 0).Empty && !s.isDir 0 && s.isDir 1 && ((s.inodes 1).directAt 0).toNat == 7 &&
          (List.range 64).all fun i => !s.inodeMap i || i < 2) = true := by
    decide +kernel
  obtain ⟨s, hs, htest⟩ := Option.any_eq_true _ _ |>.mp hend
  simp only [Bool.and_eq_true, Bool.not_eq_true', beq_iff_eq, decide_eq_true_eq, List.all_eq_true,
    List.mem_range, Bool.or_eq_true] at htest
  obtain ⟨⟨⟨⟨⟨hmap, hempty⟩, hf⟩, hd⟩, hblock⟩, hleft⟩ := htest
  have hrun := run_of_guardedAll hs
  have hwf : Wf s := wf_of_run (hrun.mono fun _ _ hg => hg.1)
  have hcov := hall 256 _ 0 s (by decide) (hrun.mono fun _ _ hg => ⟨hg.1.1, hg.2⟩)
  obtain ⟨⟨i, σ⟩, hown⟩ := hcov 8 ⟨by decide, by decide, hmap⟩
  have hi := (owner_eq_some.1 hown).1
  have hlt := hwf.lt_of_alloc hi
  rcases hleft i hlt with hfree | h2
  · exact Bool.false_ne_true (hfree.symm.trans hi)
  obtain rfl | rfl : i = 0 ∨ i = 1 := by omega
  · rw [owner_of_empty hf hempty] at hown
    simp at hown
  · have hrefers := (owner_eq_some.1 hown).2
    rw [refers, if_pos hd] at hrefers
    split at hrefers
    · rw [hblock] at hrefers
      simp at hrefers
    · simp at hrefers

end FS

end Fsx600
