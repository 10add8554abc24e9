import Fsx600.Spec.DiskFull
import Fsx600.Properties.Allocation

/-!
# Writes that fail

`fs_write` flushes each block as it takes it, and adds what it has copied to the size, before
it looks for the next.  When it finds none it jumps to `cleanup` with `-ENOSPC` in
`total_bytes_written`, and nothing of what it has done is undone.

* `unaffected_iff`: a write that fails has done nothing exactly when it is refused for its
  offset, or when no block is free and the first one that it comes to is missing;
* `not_unaffected`: 100 blocks written to a file on a disk with room for 58.
-/

namespace Fsx600

open Checked GuardedRun Mkfs

namespace FS

variable {g : Layout} {s t : FS g} {c : Context} {path : Path} {buf : ℕ → UInt8} {i len offset : ℕ}
  {r : ℤ}

/-- The file `i` has the size and the contents it had, and the bitmap of blocks is what it was. -/
structure Unaffected (i : ℕ) (s t : FS g) : Prop extends Intact i s t where
  blockMap : t.blockMap = s.blockMap

/-- A size that has grown by what the slots can hold is another one. -/
theorem add_ofNat_ne {a : Int32} {k : ℕ} (h0 : 0 < k) (hk : k ≤ 1024 * 65798) : a + Int32.ofNat k ≠ a := by
  intro h
  have hzero := congrArg Int32.toInt (Int32.add_eq_left.1 h)
  rw [Int32.toInt_ofNat_of_lt (by omega)] at hzero
  change (k : ℤ) = 0 at hzero
  omega

section Fails

variable (hs : s.SoundBlocks) (hi : s.inodeMap i = true) (hr : s.resolve 1 path.tokens = .inr i)
  (hf : s.isDir i = false)
include hs hi hr hf

/-- A write to the file, if it takes no level-1 block with leftovers. -/
theorem unaffected_iff_of_safe (hw : s.fsWrite c path buf len offset = .ok (r, t))
    (hsafe : (offset : ℤ) ≤ (s.inodes i).size.toInt → s.TableSafe i offset len) :
    (r < 0 → Unaffected i s t) ↔
      (s.inodes i).size.toInt < offset ∨ s.Enough i offset len ∨
        s.freeCount = 0 ∧ s.pointer i (dataSlot (firstSlot offset)) = 0 := by
  rcases writes_of_fsWrite hs hi hr hf hw hsafe with ⟨ho, -, rfl⟩ | ⟨ho, f, rfl, hwrites, hintact, hmap⟩
  · exact iff_of_true (fun _ => ⟨.refl i t, rfl⟩) (Or.inl ho)
  have hv := hs.ready_writeVars hi hf buf len offset
  have henough : 0 ≤ f.total ↔ s.Enough i offset len :=
    hwrites.total_nonneg_iff hv (Nat.sub_add_cancel (firstSlot_lt offset).le)
  constructor
  · intro hun
    refine Or.inr (or_iff_not_imp_left.2 fun hnot => ?_)
    have hneg : f.total < 0 := not_le.1 (mt henough.1 hnot)
    have hsame := hun hneg
    constructor
    · -- what was free would be taken by now
      have hcount := hwrites.freeCount_eq_zero hneg
      unfold freeCount at hcount ⊢
      rwa [← hsame.blockMap, hmap]
    · -- the first pass would have added to the size
      by_contra h0
      obtain ⟨p, base, w, hp, ⟨-, rfl⟩ | ⟨hlen, hrest⟩⟩ := hwrites.first_pass h0
      · exact absurd hneg (not_lt.2 (Int.natCast_nonneg _))
      · obtain ⟨hall, -⟩ := hp.fill_pass hlen
        have hstart := hp.start_lt
        obtain ⟨k, hk, hsize⟩ := hrest.size_eq
        have hgrown := hintact.size.symm.trans hsame.size
        rw [hsize, resume_fs, hp.stored.size, hall, Int32.add_assoc, ← Int32.ofNat_add] at hgrown
        exact add_ofNat_ne (by omega) (by omega) hgrown
  · rintro (h | h | ⟨hfree, h0⟩) hneg
    · omega
    · exact absurd (henough.2 h) (not_le.2 hneg)
    · obtain rfl := hwrites.eq_of_freeCount_eq_zero (firstSlot_lt offset) hfree h0
      exact ⟨hintact, hmap⟩

/-- **A write that fails** has had no effect if it is refused for its offset, or if no block is
free and the first that it comes to is missing; and it does not fail if there are enough.  There
is no other case, if it takes no level-1 block with leftovers. -/
theorem unaffected_iff (hw : s.fsWrite c path buf len offset = .ok (r, t)) :
    ((s.inodes i).size.toInt < offset ∨
        s.freeCount = 0 ∧ s.pointer i (dataSlot (firstSlot offset)) = 0 → r < 0 → Unaffected i s t) ∧
      (s.TableSafe i offset len → ((r < 0 → Unaffected i s t) ↔
        (s.inodes i).size.toInt < offset ∨ s.Enough i offset len ∨
          s.freeCount = 0 ∧ s.pointer i (dataSlot (firstSlot offset)) = 0)) := by
  refine ⟨fun h => ?_, fun hsafe => unaffected_iff_of_safe hs hi hr hf hw fun _ => hsafe⟩
  rcases h with ho | ⟨hfree, h0⟩
  · exact (unaffected_iff_of_safe hs hi hr hf hw fun hle => by omega).2 (Or.inl ho)
  · exact (unaffected_iff_of_safe hs hi hr hf hw fun _ => tableSafe_of_freeCount_eq_zero hfree).2
      (Or.inr (Or.inr ⟨hfree, h0⟩))

end Fails

/-- The disk is filled up with the file `/a`, and `/b` is empty. -/
def fillUp : List Call :=
  [.mknod pathA 0x81A4, .mknod pathB 0x81A4, .write pathA (fun _ => 1) 102400 0]

/-- Then a byte written to `/b` fails, and does nothing. -/
theorem unaffected_fillUp : ∃ s t, (fresh formattable_64 0).guardedAll ⟨1000, 1000, 0⟩ FilesGuard
    fillUp = some s ∧ s.fsWrite ⟨1000, 1000, 0⟩ pathB (fun _ => 1) 1 0 = .ok (-ENOSPC, t) ∧
      Unaffected 3 s t := by
  have hend : ((fresh formattable_64 0).guardedAll ⟨1000, 1000, 0⟩ FilesGuard fillUp).any (fun s =>
      s.inodeMap 3 && !s.isDir 3 && decide (s.resolve 1 pathB.tokens = .inr 3) &&
        decide (s.freeCount = 0) && (s.inodes 3).directAt 0 == 0 &&
          returned (s.fsWrite ⟨1000, 1000, 0⟩ pathB (fun _ => 1) 1 0) == some (-ENOSPC)) = true := by
    decide +kernel
  obtain ⟨s, hs, htest⟩ := (Option.any_eq_true _ _).mp hend
  simp only [Bool.and_eq_true, Bool.not_eq_true', beq_iff_eq, decide_eq_true_eq] at htest
  obtain ⟨⟨⟨⟨⟨hi, hf⟩, hr⟩, hfree⟩, h0⟩, hret⟩ := htest
  have hwf : Wf s := wf_of_run (run_of_guardedAll hs)
  obtain ⟨t, ht⟩ := exists_of_returned hret
  exact ⟨s, t, hs, ht, (unaffected_iff hwf.blocks hi hr hf ht).1 (Or.inr ⟨hfree, h0⟩) (by decide)⟩

/-- The write that filled the disk failed as well. -/
theorem not_unaffected : ¬ ∀ (g : Layout) (s t : FS g) (c : Context) (path : Path) (i : ℕ)
    (buf : ℕ → UInt8) (len offset : ℕ) (r : ℤ), s.SoundBlocks → s.inodeMap i = true →
      s.resolve 1 path.tokens = .inr i → sIsReg (s.inodes i).mode = true →
      (∀ y : ℕ, (1024 * y : ℕ) < (s.inodes i).size.toInt → s.pointer i (dataSlot y) ≠ 0) →
      (∀ y : ℕ, (s.inodes i).size.toInt ≤ (1024 * y : ℕ) → s.pointer i (dataSlot y) = 0) →
      s.fsWrite c path buf len offset = .ok (r, t) → r < 0 → Unaffected i s t := by
  intro hall
  have hend : ((fresh formattable_64 0).guardedAll ⟨1000, 1000, 0⟩ FilesGuard
      [.mknod pathA 0x81A4]).any (fun s => s.inodeMap 2 && sIsReg (s.inodes 2).mode &&
        decide (s.inodes 2).Empty && (s.inodes 2).size == 0 &&
        decide (s.resolve 1 pathA.tokens = .inr 2) &&
        match s.fsWrite ⟨1000, 1000, 0⟩ pathA (fun _ => 1) 102400 0 with
        | .ok (r, t) => r == -ENOSPC && (t.inodes 2).size == 59392
        | .error _ => false) = true := by
    decide +kernel
  obtain ⟨s, hs, htest⟩ := (Option.any_eq_true _ _).mp hend
  simp only [Bool.and_eq_true, beq_iff_eq, decide_eq_true_eq] at htest
  obtain ⟨⟨⟨⟨⟨hi, hreg⟩, hempty⟩, hsize⟩, hr⟩, hwrite⟩ := htest
  have hwf : Wf s := wf_of_run (run_of_guardedAll hs)
  have hint : (s.inodes 2).size.toInt = 0 := by
    rw [hsize]
    rfl
  split at hwrite
  · next r t ht =>
    rw [Bool.and_eq_true, beq_iff_eq, beq_iff_eq] at hwrite
    obtain ⟨rfl, hgrown⟩ := hwrite
    have hsame := (hall _ s t _ pathA 2 _ 102400 0 _ hwf.blocks hi hr hreg (fun y hy => by omega)
      (fun y _ => hempty.pointer s.disk _) ht (by decide)).size
    rw [hgrown, hsize] at hsame
    exact absurd hsame (by decide)
  · exact absurd hwrite Bool.false_ne_true

end FS

end Fsx600
