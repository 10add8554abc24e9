import Fsx600.Spec.Taken
import Fsx600.Spec.Fresh
import Fsx600.Model.Calls

/-!
# Allocation is sound

Two operations can leave a block both free and referenced, or referenced twice:

* `fs_truncate` frees what the blocks of pointers name, but leaves them and the pointers to
  them as they are;
* `fs_write` does not clear a new level-1 block, so the file references whatever the
  block held.

* `not_allocationSound_of_run`: a file of seven blocks, truncated, references a free block;
* `allocationSound_of_run`: every run that does neither keeps the allocation sound.
-/

namespace Fsx600

open Function GuardedRun Mkfs

/-- The calls of this module. -/
def Call.OnFiles : Call → Prop
  | .mknod _ _ | .mkdir _ _ | .unlink _ | .rmdir _ | .rename _ _ | .truncate _ _ | .write _ _ _ _ => True
  | .chmod _ _ | .utime _ _ => False

instance : (a : Call) → Decidable a.OnFiles
  | .mknod _ _ | .mkdir _ _ | .unlink _ | .rmdir _ | .rename _ _ | .truncate _ _ | .write _ _ _ _ =>
    inferInstanceAs (Decidable True)
  | .chmod _ _ | .utime _ _ => inferInstanceAs (Decidable False)

namespace FS

variable {g : Layout} {s s' : FS g} {a : Call}

/-- Every block that an allocated inode references lies in the data region, is marked in
use, and is referenced once. -/
def AllocationSound (s : FS g) : Prop := ∀ x b, s.owner x = some b →
  g.startBlock ≤ b ∧ b < g.maxNumBlocks ∧ s.blockMap b = true ∧ ∃! y, s.owner y = some b

instance (s : FS g) (i : ℕ) : Decidable (s.NoTables i) := inferInstanceAs (Decidable (_ ∧ _))

/-- No truncation of a file that has blocks of pointers. -/
def TruncateSafe (s : FS g) (path : Path) (len : ℤ) : Prop := len = 0 → s.OfFile path s.NoTables

instance (s : FS g) (path : Path) (len : ℤ) : Decidable (s.TruncateSafe path len) :=
  inferInstanceAs (Decidable (len = 0 → _))

/-- The condition on truncations and writes. -/
def FileSafe (s : FS g) : Call → Prop
  | .truncate path len => s.TruncateSafe path len
  | .write path _ len offset => s.WriteSafe path len offset
  | _ => True

instance (s : FS g) : (a : Call) → Decidable (s.FileSafe a)
  | .truncate path len => inferInstanceAs (Decidable (s.TruncateSafe path len))
  | .write path _ len offset => inferInstanceAs (Decidable (s.WriteSafe path len offset))
  | .mknod _ _ | .mkdir _ _ | .unlink _ | .rmdir _ | .rename _ _ | .chmod _ _ | .utime _ _ =>
    inferInstanceAs (Decidable True)

/-- What the calls of a run have to meet. -/
def FilesGuard (s : FS g) (a : Call) : Prop := a.OnFiles ∧ s.FileSafe a

instance (s : FS g) (a : Call) : Decidable (s.FilesGuard a) := inferInstanceAs (Decidable (_ ∧ _))

theorem Wf.allocationSound (hwf : Wf s) : s.AllocationSound := by
  intro x b hx
  obtain ⟨h1, h2, h3⟩ := hwf.sound.used hx
  exact ⟨h1, h2, h3, hwf.sound.existsUnique hx⟩

/-- A safe truncation keeps a state well formed. -/
theorem TruncateResult.wf {path : Path} {len r : ℤ} (hwf : Wf s) (hsafe : s.TruncateSafe path len)
    (h : TruncateResult s path len r s') : Wf s' := by
  cases h with
  | badLength => exact hwf
  | badPath => exact hwf
  | isDir => exact hwf
  | truncated hlen hr hf ht => exact hwf.truncated (hwf.alloc_of_resolve hr) hf ht (hsafe hlen _ hr hf)

/-- One call keeps a state well formed. -/
theorem Wf.fileStep (hwf : Wf s) (hg : s.FilesGuard a) (h : s.Step a s') : Wf s' := by
  obtain ⟨c, r, h⟩ := h
  obtain ⟨ha, hg⟩ := hg
  cases a with
  | mknod path mode => exact (fsMknod_ok hwf h).wf hwf
  | mkdir path mode => exact (fsMkdir_ok hwf h).wf hwf
  | unlink path => exact (fsUnlink_ok hwf h).wf hwf
  | rmdir path => exact (fsRmdir_ok hwf h).wf hwf
  | rename srcPath dstPath => exact (fsRename_ok hwf h).wf hwf
  | truncate path len => exact (hwf.fsTruncate_ok h).wf hwf hg
  | write path buf len offset =>
    have hinv := (hwf.fsWrite_ok h).invariant (P := fun _ => True) hwf hg trivial
      (fun _ _ _ _ _ _ _ _ _ _ _ _ => trivial) fun _ _ _ => trivial
    exact hinv.1
  | chmod | utime => exact ha.elim

/-- A run of such calls from a freshly formatted image. -/
theorem wf_of_run {n : ℕ} {h : Formattable n} {t : UInt32} {s : FS (layout h)}
    (hrun : Run Step FilesGuard (fresh h t) s) : Wf s :=
  hrun.invariant (wf_fresh h t) fun _ _ _ hs hg hstep => hs.fileStep hg hstep

/-- **Allocation is sound** in every state of a run from a freshly formatted image whose
truncations and writes are safe. -/
theorem allocationSound_of_run {n : ℕ} (h : Formattable n) (t : UInt32) (s : FS (layout h))
    (hrun : Run Step FilesGuard (fresh h t) s) : s.AllocationSound :=
  (wf_of_run hrun).allocationSound

/-- `mknod /a`, a write of 2000 bytes, `truncate /a`. -/
def smallRun : List Call :=
  [.mknod pathA 0x81A4, .write pathA (fun _ => 1) 2000 0, .truncate pathA 0]

/-- A run that truncates a file of two blocks. -/
theorem allocationSound_of_smallRun : ∃ s,
    (fresh formattable_256 0).guardedAll ⟨1000, 1000, 0⟩ FilesGuard smallRun = some s ∧
      s.AllocationSound := by
  have hend : ((fresh formattable_256 0).guardedAll ⟨1000, 1000, 0⟩ FilesGuard smallRun).isSome = true := by
    decide +kernel
  obtain ⟨s, hs⟩ := Option.isSome_iff_exists.mp hend
  exact ⟨s, hs, allocationSound_of_run formattable_256 0 s (run_of_guardedAll hs)⟩

/-- `mknod /a`, a write of 6145 bytes, `truncate /a`. -/
def truncateRun : List Call :=
  [.mknod pathA 0x81A4, .write pathA (fun _ => 1) 6145 0, .truncate pathA 0]

/-- After these calls the file references a free block, through entry 0 of `indir_1`. -/
theorem not_allocationSound_of_run : ¬ ∀ (n : ℕ) (h : Formattable n) (t : UInt32) (s : FS (layout h)),
    64 ≤ (layout h).numInodes → Run Step (fun _ a => a.OnFiles ∧ a.Proper) (fresh h t) s →
      s.AllocationSound := by
  intro hall
  have hend : ((fresh formattable_256 0).guardedAll ⟨1000, 1000, 0⟩ (fun _ a => a.OnFiles ∧ a.Proper)
      truncateRun).any (fun s => s.inodeMap 2 && !s.isDir 2 && s.pointer 2 (.level1 0) != 0 &&
        !s.blockMap (s.pointer 2 (.level1 0)).toNat) = true := by
    decide +kernel
  obtain ⟨s, hs, htest⟩ := (Option.any_eq_true _ _).mp hend
  simp only [Bool.and_eq_true, Bool.not_eq_true', bne_iff_ne, ne_eq] at htest
  obtain ⟨⟨⟨hi, hf⟩, hp⟩, hfree⟩ := htest
  have hsound := hall 256 _ 0 s (by decide) (run_of_guardedAll hs) _ _ (owner_of_pointer hi hf hp)
  exact Bool.false_ne_true (hfree.symm.trans hsound.2.2.1)

end FS

end Fsx600
