import Fsx600.Spec.Vacant
import Fsx600.Spec.Returns

/-!
# The root directory

Inode 1 is the one inode that has no entry: no operation finds it under a name, so none
unlinks or moves it.  What can reach it is a path without components, for which
`translate_path_to_inum` answers 1 and `get_parent_inum` answers `-EINVAL`.  The operations
test the second answer for `-ENOENT` and `-ENOTDIR` only, and three of them go on to index
the inode table with it.

* `rootIntact_of_run`: as long as no call does, the root directory stays what it was, every
  such call returns, and the calls that would do it are known exactly;
* `not_rootIntact_of_run`: `mknod /` does.
-/

namespace Fsx600

open Checked Function GuardedRun Mkfs

/-- The calls of this module; `fs_chmod` brings permission bits only. -/
def Call.OnRoot : Call → Prop
  | .mknod _ _ | .mkdir _ _ | .unlink _ | .rmdir _ | .rename _ _ | .truncate _ _ | .utime _ _ => True
  | .chmod _ mode => fileType mode = 0
  | .write _ _ _ _ => False

/-- Every path of the call is small; it may be without components. -/
def Call.Small : Call → Prop
  | .mknod path _ | .mkdir path _ | .unlink path | .rmdir path | .chmod path _ | .utime path _
  | .truncate path _ | .write path _ _ _ => path.Small
  | .rename srcPath dstPath => srcPath.Small ∧ dstPath.Small

/-- Permission bits do not change what is a directory. -/
theorem sIsDir_chmodMode {old mode : UInt32} (h : fileType mode = 0) :
    sIsDir (FS.chmodMode old mode) = sIsDir old := by
  have htype : ∀ t : UInt32, fileType (t ||| mode) = fileType t := fun t => by
    rw [fileType_or, h, UInt32.or_zero]
  unfold FS.chmodMode
  split
  · next hd =>
    rw [hd, sIsDir_iff, htype]
    rfl
  · next hd =>
    split
    · rw [Bool.eq_false_iff.2 hd]
      refine sIsDir_of_regular ?_
      rw [htype]
      rfl
    · rfl

namespace FS

variable {g : Layout} {s s' : FS g} {c : Context} {a : Call} {path : Path} {r : ℤ}

/-- The root directory is where `mkfs-x6` put it. -/
structure RootIntact (s : FS g) : Prop where
  allocated : s.inodeMap 1 = true
  isDir : s.isDir 1 = true
  block : ((s.inodes 1).directAt 0).toNat = g.startBlock
  marked : s.blockMap g.startBlock = true

/-- The call does not ask for the parent of the root, or finds out before it uses it. -/
def HasParent (s : FS g) : Call → Prop
  | .mknod path _ | .mkdir path _ => path.tokens ≠ []
  | .rmdir path => path.tokens ≠ [] ∨ ∃ j < 32, (s.entry 1 j).valid = true
  | .rename srcPath dstPath => srcPath.tokens ≠ [] ∨ dstPath.tokens ≠ []
  | _ => True

/-- What the calls of a run have to meet. -/
def RootGuard (s : FS g) (a : Call) : Prop := a.OnRoot ∧ a.Small ∧ s.HasParent a

/-- The invariant: no file holds a block, and the root directory is the first block of the
data region. -/
structure Rooted (s : FS g) : Prop extends Vacant s where
  root_block : ((s.inodes 1).directAt 0).toNat = g.startBlock

theorem Rooted.rootIntact (h : Rooted s) : s.RootIntact where
  allocated := h.bit_one
  isDir := h.root_isDir
  block := h.root_block
  marked := by
    have huse := h.dirBlock_inUse h.allocDir_one
    rw [h.root_block] at huse
    exact huse.2.2

/-! ## One call -/

theorem Vacant.rooted (h : Vacant s') (hs : Rooted s)
    (hino : (s'.inodes 1).directAt 0 = (s.inodes 1).directAt 0) : Rooted s' :=
  ⟨h, by rw [hino, hs.root_block]⟩

theorem Rooted.writeInodeMap (h : Rooted s) : Rooted s.writeInodeMap :=
  h.toVacant.writeInodeMap.rooted h rfl

theorem Rooted.mknodResult (h : Rooted s) {mode : UInt32} (hr : MknodResult c s path mode r s') :
    Rooted s' := by
  cases hr with
  | badPath => exact h
  | «exists» => exact h
  | noInode => exact h
  | noSlot => exact h.writeInodeMap
  | noBlock => exact h.writeInodeMap
  | created _ hc =>
    refine (h.toVacant.created hc).rooted h ?_
    rw [hc.inodes, update_of_ne (hc.ne_of_alloc h.bit_one)]

theorem Rooted.removed (h : Rooted s) {p j i : ℕ} {e : Dirent} (hr : Removed p j i e s s') :
    Rooted s' := by
  have := hr.two_le h.toWf
  refine (h.toVacant.removed hr).rooted h ?_
  rw [hr.inodes 1 (by omega)]

theorem Rooted.touch (h : Rooted s) {i : ℕ} {ino : Inode} (hm : sIsDir ino.mode = s.isDir i)
    (hd : ino.direct = (s.inodes i).direct) (h1 : ino.indir1 = (s.inodes i).indir1)
    (h2 : ino.indir2 = (s.inodes i).indir2) : Rooted (s.setInode i ino).writeAllInodes := by
  refine (h.toVacant.touch hm hd h1 h2).rooted h ?_
  rw [Inode.directAt, Inode.directAt]
  simp only [inodes_writeAllInodes, inodes_setInode, field_update Inode.direct hd 1]

/-- One call leaves the root directory in its place. -/
theorem Rooted.step (h : Rooted s) (ha : a.OnRoot) (hs : s.exec c a = .ok (r, s')) : Rooted s' := by
  cases a with
  | mknod path mode => exact h.mknodResult (fsMknod_ok h.toWf hs)
  | mkdir path mode => exact h.mknodResult (fsMkdir_ok h.toWf hs)
  | unlink path =>
    cases fsUnlink_ok h.toWf hs with
    | badPath => exact h
    | isDir => exact h
    | removed _ _ _ hr => exact h.removed hr
  | rmdir path =>
    cases fsRmdir_ok h.toWf hs with
    | badPath => exact h
    | notDir => exact h
    | notEmpty => exact h
    | removed _ _ _ hr => exact h.removed hr
  | rename srcPath dstPath =>
    cases fsRename_ok h.toWf hs with
    | badPath => exact h
    | otherDir => exact h
    | taken => exact h
    | renamed _ _ _ _ hr =>
      refine (h.toVacant.renamed hr).rooted h ?_
      rw [hr.inodes]
      exact field_update (fun ino => ino.directAt 0) (by rfl) 1
  | truncate path len =>
    cases h.fsTruncate_ok hs with
    | badLength => exact h
    | badPath => exact h
    | isDir => exact h
    | @truncated i _ _ hr hf ht =>
      refine (h.toVacant.truncated (h.alloc_of_resolve hr) hf ht).rooted h ?_
      rw [ht.inodes 1 ?_]
      rintro rfl
      exact Bool.false_ne_true (hf.symm.trans h.root_isDir)
  | chmod path mode =>
    cases fsChmod_ok hs with
    | badPath => exact h
    | touched => exact h.touch (sIsDir_chmodMode ha) rfl rfl rfl
  | utime path modtime =>
    cases fsUtime_ok hs with
    | badPath => exact h
    | touched => exact h.touch rfl rfl rfl rfl
  | write => exact ha.elim

/-! ## The parent of the root -/

/-- The inode table indexed with what `get_parent_inum` answers for the root. -/
theorem inode_einval : s.inode (-EINVAL) = .error (.inodeIndex (-EINVAL)) := by
  rw [inode, if_neg fun hi => absurd hi.1 (by decide)]

theorem fsMknod_of_nil (hnil : path.tokens = []) (mode : UInt32) :
    s.fsMknod c path mode = .error (.inodeIndex (-EINVAL)) := by
  unfold fsMknod
  rw [translatePathToInum_of_nil hnil, ok_bind, getParentInum_of_nil hnil, ok_bind]
  dsimp only
  rw [if_neg (by decide), inode_einval]
  rfl

theorem fsRename_of_nil {dstPath : Path} (hnil : path.tokens = []) (hnil' : dstPath.tokens = []) :
    s.fsRename c path dstPath = .error (.inodeIndex (-EINVAL)) := by
  unfold fsRename
  rw [getParentInum_of_nil hnil, ok_bind]
  dsimp only
  rw [translatePathToInum_of_nil hnil, ok_bind, getParentInum_of_nil hnil', ok_bind]
  dsimp only
  rw [if_neg (by decide), if_neg (not_not.2 rfl), inode_einval]
  rfl

/-- By the time that `fs_rmdir` looks the parent up, it has given the root's block back. -/
theorem WellFormed.fsRmdir_of_nil (h : WellFormed s) (hnil : path.tokens = [])
    (hempty : ∀ j < 32, (s.entry 1 j).valid = false) :
    s.fsRmdir path = .error (.inodeIndex (-EINVAL)) := by
  have huse := h.dirBlock_inUse h.allocDir_one
  have hany : ¬ ((List.range 32).any fun k =>
      ((s.disk ((s.inodes 1).directAt 0).toNat).dirent k).valid) = true := by
    rw [List.any_eq_true]
    rintro ⟨j, hj, hv⟩
    exact Bool.false_ne_true ((hempty j (List.mem_range.1 hj)).symm.trans hv)
  have hbit : (cInt ((s.inodes 1).directAt 0)).toNat < g.blockBits := by
    have := huse.2.1
    have := h.numBlocks_le_bits
    rw [cInt_of_inUse h.blocks.numBlocks_lt huse, Int.toNat_natCast]
    omega
  obtain ⟨t, ht⟩ := freeABlock_returns (s := s) hbit
  have hone : s.inode 1 = .ok (s.inodes 1) := h.indexed.inode_returns h.bit_one
  unfold fsRmdir
  rw [translatePathToInum_of_nil hnil, ok_bind, getParentInum_of_nil hnil, ok_bind]
  dsimp only
  rw [if_neg (by decide), hone, ok_bind, if_neg (by simpa [isDir] using h.root_isDir),
    h.readBlock_inUse huse, ok_bind, if_neg hany, ht, ok_bind, inode_einval]
  rfl

/-- A call with small paths returns unless it asks for the parent of the root. -/
theorem WellFormed.exec_returns_of_hasParent (h : WellFormed s) (c : Context) (ha : a.OnRoot)
    (hp : a.Small) (hpar : s.HasParent a) : Returns (s.exec c a) := by
  cases a with
  | mknod path mode => exact h.fsMknod_returns ⟨List.length_pos_iff.2 hpar, hp⟩ mode
  | mkdir path mode => exact h.fsMknod_returns ⟨List.length_pos_iff.2 hpar, hp⟩ (mode ||| S_IFDIR)
  | unlink path => exact h.indexed.fsUnlink_returns hp
  | rmdir path => exact h.indexed.fsRmdir_returns hp hpar
  | rename srcPath dstPath => exact h.indexed.fsRename_returns hp.1 hp.2 hpar
  | truncate path len => exact h.indexed.fsTruncate_returns hp.1 len
  | chmod path mode => exact h.indexed.fsChmod_returns hp.1 mode
  | utime path modtime => exact h.indexed.fsUtime_returns hp.1 modtime
  | write => exact ha.elim

/-- And if it does, it indexes the inode table with `-EINVAL`. -/
theorem WellFormed.exec_of_not_hasParent (h : WellFormed s) (c : Context) (hpar : ¬ s.HasParent a) :
    s.exec c a = .error (.inodeIndex (-EINVAL)) := by
  cases a with
  | mknod path mode => exact fsMknod_of_nil (not_not.1 hpar) mode
  | mkdir path mode => exact fsMknod_of_nil (not_not.1 hpar) (mode ||| S_IFDIR)
  | rmdir path =>
    rw [HasParent, not_or, not_not] at hpar
    obtain ⟨hnil, hempty⟩ := hpar
    exact h.fsRmdir_of_nil hnil fun j hj => Bool.of_not_eq_true fun hv => hempty ⟨j, hj, hv⟩
  | rename srcPath dstPath =>
    rw [HasParent, not_or, not_not, not_not] at hpar
    exact fsRename_of_nil hpar.1 hpar.2
  | unlink | truncate | chmod | utime | write => exact absurd trivial hpar

theorem WellFormed.negativeIndex_iff (h : WellFormed s) (c : Context) (ha : a.OnRoot) (hp : a.Small) :
    (∃ i < 0, s.exec c a = .error (.inodeIndex i)) ↔ ¬ s.HasParent a := by
  constructor
  · rintro ⟨i, -, hi⟩ hpar
    obtain ⟨z, hz⟩ := h.exec_returns_of_hasParent c ha hp hpar
    exact absurd (hz.symm.trans hi) (by simp)
  · exact fun hpar => ⟨-EINVAL, by decide, h.exec_of_not_hasParent c hpar⟩

/-! ## Runs -/

theorem rooted_fresh {n : ℕ} (h : Formattable n) (t : UInt32) : Rooted (fresh h t) :=
  ⟨vacant_fresh h t, toNat_rootInode h t⟩

/-- **The root directory survives** every run from a freshly formatted image whose calls do
not ask for its parent, and the calls that index the inode table with a negative number are
those that do. -/
theorem rootIntact_of_run {n : ℕ} (h : Formattable n) (hino : 64 ≤ (layout h).numInodes) (t : UInt32)
    (s : FS (layout h)) (hrun : Run Step RootGuard (fresh h t) s) :
    s.RootIntact ∧
    (∀ c a, s.RootGuard a → ∃ r s', s.exec c a = .ok (r, s') ∧ s'.RootIntact) ∧
    ∀ c a, a.OnRoot → a.Small →
      ((∃ i < 0, s.exec c a = .error (.inodeIndex i)) ↔ ¬ s.HasParent a) := by
  have hinv : Rooted s := hrun.invariant (rooted_fresh h t) fun _ _ _ hs hg hstep => by
    obtain ⟨c, r, hstep⟩ := hstep
    exact hs.step hg.1 hstep
  have hwf : WellFormed s := ⟨hinv.toWf, hino⟩
  refine ⟨hinv.rootIntact, fun c a hg => ?_, fun c a ha hp => hwf.negativeIndex_iff c ha hp⟩
  obtain ⟨⟨r, s'⟩, hr⟩ := hwf.exec_returns_of_hasParent c hg.1 hg.2.1 hg.2.2
  exact ⟨r, s', hr, (hinv.step hg.1 hr).rootIntact⟩

/-- `chmod / 0700`, `mkdir /a`, `rmdir /`. -/
def rootRun : List Call := [.chmod rootPath 0x1C0, .mkdir pathA 0x1ED, .rmdir rootPath]

instance (s : FS g) : (a : Call) → Decidable (s.RootGuard a)
  | .mknod path _ | .mkdir path _ => inferInstanceAs (Decidable (True ∧ path.Small ∧ ¬ path.tokens = []))
  | .rmdir path => inferInstanceAs (Decidable (True ∧ path.Small ∧
      (¬ path.tokens = [] ∨ ∃ j < 32, (s.entry 1 j).valid = true)))
  | .rename srcPath dstPath => inferInstanceAs (Decidable (True ∧ (srcPath.Small ∧ dstPath.Small) ∧
      (¬ srcPath.tokens = [] ∨ ¬ dstPath.tokens = [])))
  | .chmod path mode => inferInstanceAs (Decidable (fileType mode = 0 ∧ path.Small ∧ True))
  | .unlink path | .utime path _ | .truncate path _ =>
    inferInstanceAs (Decidable (True ∧ path.Small ∧ True))
  | .write path _ _ _ => inferInstanceAs (Decidable (False ∧ path.Small ∧ True))

/-- A run with paths that lead to the root. -/
theorem rootIntact_of_rootRun : ∃ s,
    (fresh formattable_256 0).guardedAll ⟨1000, 1000, 0⟩ RootGuard rootRun = some s ∧ s.RootIntact := by
  have hend : ((fresh formattable_256 0).guardedAll ⟨1000, 1000, 0⟩ RootGuard rootRun).isSome = true := by
    decide +kernel
  obtain ⟨s, hs⟩ := Option.isSome_iff_exists.1 hend
  exact ⟨s, hs, (rootIntact_of_run formattable_256 (by decide) 0 s (run_of_guardedAll hs)).1⟩

/-- With any small paths, a call can index the inode table with a negative number:
`mknod /` on a new image, and likewise `rmdir /`. -/
theorem not_rootIntact_of_run : ¬ ∀ (n : ℕ) (h : Formattable n) (t : UInt32) (s : FS (layout h)),
    64 ≤ (layout h).numInodes → Run Step (fun _ a => a.OnRoot ∧ a.Small) (fresh h t) s →
      s.RootIntact ∧ ∀ c a, a.OnRoot → a.Small → ∀ i < 0, s.exec c a ≠ .error (.inodeIndex i) := by
  intro hall
  have hmknod := (hall 256 formattable_256 0 _ (by decide) .refl).2 ⟨1000, 1000, 0⟩
    (.mknod rootPath 0x81A4) trivial (show rootPath.Small by decide +kernel) (-EINVAL) (by decide)
  exact hmknod (fsMknod_of_nil (by decide +kernel) 0x81A4)

end FS

end Fsx600
