import Fsx600.Properties.Allocation
import Fsx600.Spec.Intact

/-!
# Isolation of files

A call on one file leaves the others alone as long as allocation is sound: every block that
it writes is free, or a directory's, or belongs to the file that it is about.  So isolation
fails just after the allocation did.  A truncated file goes on referencing blocks that are
free, the next file gets them, and a write to either changes the other.

* `not_isolated_of_run`: a write to one file changes a byte of another;
* `isolated_of_run`: under the condition that keeps allocation sound, none does.
-/

namespace Fsx600

open Checked Function GuardedRun Mkfs

namespace FS

variable {g : Layout} {s s' : FS g} {c : Context} {a : Call} {path : Path} {r : ℤ} {q : ℕ}

/-- The size and the contents of every regular file but the one at `path` are as they were. -/
def Isolated (path : Path) (s s' : FS g) : Prop := ∀ q, s.inodeMap q = true →
  sIsReg (s.inodes q).mode = true → s.resolve 1 path.tokens ≠ .inr q →
    (s'.inodes q).size = (s.inodes q).size ∧
      ∀ x : ℕ, x < (s.inodes q).size.toInt → s'.byteAt q x = s.byteAt q x

section Calls

variable (hwf : Wf s) (hq : s.inodeMap q = true) (hf : s.isDir q = false)
include hwf hq hf

theorem MknodResult.intact {mode : UInt32} (h : MknodResult c s path mode r s') : Intact q s s' := by
  cases h with
  | badPath => exact .refl q s
  | «exists» => exact .refl q s
  | noInode => exact .refl q s
  | noSlot => exact intact_writeInodeMap hwf hq hf
  | noBlock => exact intact_writeInodeMap hwf hq hf
  | created _ hc => exact hc.intact hwf hq hf

/-- A write keeps the other files, if its level-1 blocks are clean. -/
theorem WriteResult.intact {buf : ℕ → UInt8} {len offset : ℕ} (hsafe : s.WriteSafe path len offset)
    (h : WriteResult c s path buf len offset r s') (hqr : s.resolve 1 path.tokens ≠ .inr q) :
    Intact q s s' := by
  have hinv := h.invariant (P := fun t => t.inodeMap q = true ∧ t.isDir q = false ∧ Intact q s t) hwf
    hsafe ⟨hq, hf, .refl q s⟩ ?_ ?_
  · exact hinv.2.2.2
  · intro i hr _ t t' σ p b m hwf' ⟨hq', hf', hintact⟩ hstored
    have hqi : q ≠ i := by
      rintro rfl
      exact hqr hr
    exact ⟨by rw [hstored.inodeMap, hq'], by rw [hstored.isDir, hf'],
      hintact.trans (hstored.intact hwf'.blocks hq' hf' hqi)⟩
  · intro t i hwf' ⟨hq', hf', hintact⟩
    exact ⟨hq', (isDir_touch (by rfl) q).trans hf', hintact.trans (intact_touch hwf'.blocks hq' hf' i c.now)⟩

/-- One call keeps the files that it is not about. -/
theorem Step.intact (hg : s.FilesGuard a) (h : s.Step a s')
    (hqr : s.resolve 1 a.path.tokens ≠ .inr q) : Intact q s s' := by
  obtain ⟨c, r, h⟩ := h
  obtain ⟨ha, hg⟩ := hg
  cases a with
  | mknod path mode => exact (fsMknod_ok hwf h).intact hwf hq hf
  | mkdir path mode => exact (fsMkdir_ok hwf h).intact hwf hq hf
  | unlink path =>
    cases fsUnlink_ok hwf h with
    | badPath => exact .refl q s
    | isDir => exact .refl q s
    | removed hp hi _ hr =>
      refine hr.intact hwf hq hf ?_
      rintro rfl
      exact hqr (hp.resolve.trans hi)
  | rmdir path =>
    cases fsRmdir_ok hwf h with
    | badPath => exact .refl q s
    | notDir => exact .refl q s
    | notEmpty => exact .refl q s
    | removed hp hi _ hr _ =>
      refine hr.intact hwf hq hf ?_
      rintro rfl
      exact hqr (hp.resolve.trans hi)
  | rename srcPath dstPath =>
    cases fsRename_ok hwf h with
    | badPath => exact .refl q s
    | otherDir => exact .refl q s
    | taken => exact .refl q s
    | renamed _ _ _ _ hr => exact hr.intact hwf hq hf
  | truncate path len =>
    cases hwf.fsTruncate_ok h with
    | badLength => exact .refl q s
    | badPath => exact .refl q s
    | isDir => exact .refl q s
    | truncated _ hr _ ht =>
      refine ht.intact hwf.blocks hq hf ?_
      rintro rfl
      exact hqr hr
  | write path buf len offset => exact (hwf.fsWrite_ok h).intact hwf hq hf hg hqr
  | chmod | utime => exact ha.elim

end Calls

/-- **Files are isolated**: in a run from a freshly formatted image whose truncations and
writes are safe, a call leaves every file alone that it is not about. -/
theorem isolated_of_run {n : ℕ} (h : Formattable n) (t : UInt32) (s s' : FS (layout h)) (a : Call)
    (hrun : Run Step FilesGuard (fresh h t) s) (hg : s.FilesGuard a) (hstep : s.Step a s') :
    Isolated a.path s s' := by
  have hwf : Wf s := wf_of_run hrun
  intro q hq hreg hqr
  have hf : s.isDir q = false := sIsDir_of_regular ((sIsReg_iff _).1 hreg)
  have hintact := Step.intact hwf hq hf hg hstep hqr
  exact ⟨hintact.size, fun x _ => hintact.byteAt x⟩

/-- `mknod /a`, a write of 2000 bytes to it, `truncate /a`, `mknod /b`, a write to `/b`. -/
def twoFilesRun : List Call :=
  [.mknod pathA 0x81A4, .write pathA (fun _ => 1) 2000 0, .truncate pathA 0,
    .mknod pathB 0x81A4, .write pathB (fun _ => 2) 1 0]

/-- A write of 2000 bytes to `/a`. -/
def rewrite : Call := .write pathA (fun _ => 3) 2000 0

/-- A run in which the first file is written again. -/
theorem isolated_of_twoFilesRun : ∃ s s',
    (fresh formattable_256 0).guardedAll ⟨1000, 1000, 0⟩ FilesGuard twoFilesRun = some s ∧
      s.guardedAll ⟨1000, 1000, 0⟩ FilesGuard [rewrite] = some s' ∧ Isolated rewrite.path s s' := by
  have hend : ((fresh formattable_256 0).guardedAll ⟨1000, 1000, 0⟩ FilesGuard twoFilesRun).any
      (fun s => decide (s.FilesGuard rewrite) &&
        (match s.exec ⟨1000, 1000, 0⟩ rewrite with | .ok _ => true | .error _ => false)) = true := by
    decide +kernel
  obtain ⟨s, hs, htest⟩ := (Option.any_eq_true _ _).mp hend
  rw [Bool.and_eq_true, decide_eq_true_eq] at htest
  obtain ⟨hg, hreturns⟩ := htest
  split at hreturns
  · next y hy =>
    obtain ⟨r, s'⟩ := y
    refine ⟨s, s', hs, ?_, isolated_of_run formattable_256 0 s s' rewrite (run_of_guardedAll hs) hg ⟨_, r, hy⟩⟩
    rw [guardedAll, if_pos hg, hy]
    rfl
  · simp at hreturns

/-- `mknod /a`, a write of 6145 bytes, `truncate /a`, `mknod /b`, a write of one byte to it. -/
def sharedRun : List Call :=
  [.mknod pathA 0x81A4, .write pathA (fun _ => 1) 6145 0, .truncate pathA 0,
    .mknod pathB 0x81A4, .write pathB (fun _ => 2) 1 0]

/-- A write of 6145 bytes to `/a`. -/
def overwriteAll : Call := .write pathA (fun _ => 1) 6145 0

/-- After these calls `/a` and `/b` share a block, and a write to `/a` changes `/b`. -/
theorem not_isolated_of_run : ¬ ∀ (n : ℕ) (h : Formattable n) (t : UInt32) (s s' : FS (layout h)) (a : Call),
    64 ≤ (layout h).numInodes → Run Step (fun _ a => a.OnFiles ∧ a.Proper) (fresh h t) s →
      a.OnFiles ∧ a.Proper → s.Step a s' → Isolated a.path s s' := by
  intro hall
  have hend : ((fresh formattable_256 0).guardedAll ⟨1000, 1000, 0⟩ (fun _ a => a.OnFiles ∧ a.Proper)
      sharedRun).any (fun s => s.inodeMap 3 && sIsReg (s.inodes 3).mode && (s.inodes 3).size == 1 &&
        decide (s.resolve 1 overwriteAll.path.tokens ≠ .inr 3) && s.byteAt 3 0 == some 2 &&
          endsIn (fun s' => s'.byteAt 3 0 == some 1) (s.execAll ⟨1000, 1000, 0⟩ [overwriteAll])) = true := by
    decide +kernel
  obtain ⟨s, hs, htest⟩ := (Option.any_eq_true _ _).mp hend
  simp only [Bool.and_eq_true, beq_iff_eq, decide_eq_true_eq] at htest
  obtain ⟨⟨⟨⟨⟨hi, hreg⟩, hsize⟩, hother⟩, hbyte⟩, hend'⟩ := htest
  obtain ⟨s', hs', htest'⟩ := exists_of_endsIn hend'
  rw [beq_iff_eq] at htest'
  rw [execAll, bind_eq_ok] at hs'
  obtain ⟨⟨r, u⟩, hu, hs'⟩ := hs'
  obtain rfl := Except.ok.inj hs'
  have hkept := hall 256 _ 0 s u overwriteAll (by decide) (run_of_guardedAll hs)
    ⟨trivial, by decide +kernel⟩ ⟨_, r, hu⟩
  have hsame := (hkept 3 hi hreg hother).2 0 (by rw [hsize]; decide)
  rw [hbyte, htest'] at hsame
  exact absurd hsame (by decide)

end FS

end Fsx600
