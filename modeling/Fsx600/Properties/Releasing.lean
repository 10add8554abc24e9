import Fsx600.Properties.Allocation

/-!
# What truncation releases

A truncated file should be left without pointers, and its blocks, the blocks of pointers
among them, should be free again.  `fs_truncate` does this for a file without blocks only:
the first loop frees what the pointer is after it has been cleared, and the pointers `indir_1`
and `indir_2` stay.
-/

namespace Fsx600

open Function GuardedRun Mkfs

/-- The data block that a slot holds, or the first data block below the slot. -/
def Slot.first : Slot → ℕ
  | direct k => k
  | indir1 => 6
  | level1 k => 6 + k
  | indir2 => 262
  | outer i => 262 + 256 * i
  | inner i j => 262 + 256 * i + j

namespace FS

variable {g : Layout} {s s' : FS g} {i : ℕ} {path : Path}

/-- The pointers of the file `i` are filled without gaps: in front of a pointer every data
slot is mapped. -/
def NoGaps (s : FS g) (i : ℕ) : Prop :=
  ∀ σ, s.pointer i σ ≠ 0 → ∀ y < σ.first, s.pointer i (dataSlot y) ≠ 0

/-- The file `i` is left without bytes and without pointers, and of the block map those bits
are cleared that belong to the blocks it referenced. -/
structure Released (i : ℕ) (s s' : FS g) : Prop where
  size : (s'.inodes i).size = 0
  empty : (s'.inodes i).Empty
  blockMap : ∀ b, s'.blockMap b = true ↔ s.blockMap b = true ∧ ∀ σ, s.refers i σ ≠ some b

/-- A file without blocks has none to release. -/
theorem Truncated.released (hf : s.isDir i = false) (h : Truncated i s s') (he : (s.inodes i).Empty) :
    Released i s s' where
  size := h.size
  empty := by
    obtain ⟨hd, h1, h2⟩ := he
    refine ⟨?_, by rw [h.indir1, h1], by rw [h.indir2, h2]⟩
    funext k
    have hzero : (s.inodes i).directAt k = 0 := by
      unfold Inode.directAt
      rw [hd]
      exact ite_self _
    have hk := h.direct k
    unfold Inode.directAt at hk hzero
    rw [hzero, or_self] at hk
    simpa using hk
  blockMap := fun b => by
    have hnone : ∀ σ, s.refers i σ ≠ some b := fun σ hσ =>
      ((refers_of_file hf).1 hσ).1 (he.pointer _ σ)
    rcases h.freed b with hb | ⟨-, ⟨σ, -, hσ⟩, -⟩
    · rw [hb]
      exact ⟨fun ht => ⟨ht, hnone⟩, And.left⟩
    · exact absurd hσ (hnone σ)

/-- A file that is released had no blocks: one in a direct pointer would not be free, and the
other two pointers would still be there. -/
theorem Truncated.empty_of_released (hs : s.SoundBlocks) (hi : s.inodeMap i = true)
    (hf : s.isDir i = false) (h : Truncated i s s') (hrel : Released i s s') : (s.inodes i).Empty := by
  obtain ⟨-, h1, h2⟩ := hrel.empty
  refine ⟨?_, h.indir1.symm.trans h1, h.indir2.symm.trans h2⟩
  by_contra hd
  obtain ⟨k, hk⟩ := ne_iff.mp hd
  have hp : s.pointer i (.direct k) ≠ 0 := by
    show (s.inodes i).directAt k ≠ 0
    unfold Inode.directAt
    simpa using hk
  have hrefers : s.refers i (.direct k) = some (s.pointer i (.direct k)).toNat :=
    (refers_of_file hf).2 ⟨hp, rfl⟩
  have huse := hs.sound.used (owner_of_pointer hi hf hp)
  have hkept : s'.blockMap (s.pointer i (.direct k)).toNat = true := by
    rcases h.freed (s.pointer i (.direct k)).toNat with hb | ⟨-, ⟨σ, hσ, hother⟩, -⟩
    · rw [hb]
      exact huse.2.2
    · -- what is freed stands in a block of pointers
      have hsame := hs.sound.inj (owner_eq_some.2 ⟨hi, hother⟩) (owner_eq_some.2 ⟨hi, hrefers⟩)
      obtain rfl : σ = .direct k := congrArg Prod.snd hsame
      exact hσ.elim
  exact ((hrel.blockMap _).1 hkept).2 _ hrefers

theorem truncated_of_fsTruncate (hs : s.SoundBlocks) (hr : s.resolve 1 path.tokens = .inr i)
    (hi : s.inodeMap i = true) (h : s.fsTruncate path 0 = .ok (0, s')) : Truncated i s s' := by
  have halloc : ∀ j, s.resolve 1 path.tokens = .inr j → s.inodeMap j = true := fun j hj => by
    obtain rfl := Sum.inr.inj (hr.symm.trans hj)
    exact hi
  generalize hz : (0 : ℤ) = r at h
  cases fsTruncate_ok hs halloc h with
  | badLength => omega
  | badPath he => exact absurd (hr.symm.trans he) (by simp)
  | isDir => exact absurd hz (by decide)
  | truncated _ hj _ ht =>
    obtain rfl := Sum.inr.inj (hr.symm.trans hj)
    exact ht

/-- **Truncation releases** the blocks of a file if and only if the file has none. -/
theorem released_iff (hs : s.SoundBlocks) (hr : s.resolve 1 path.tokens = .inr i)
    (hi : s.inodeMap i = true) (hf : s.isDir i = false) (h : s.fsTruncate path 0 = .ok (0, s')) :
    Released i s s' ↔ (s.inodes i).Empty := by
  have ht := truncated_of_fsTruncate hs hr hi h
  exact ⟨ht.empty_of_released hs hi hf, ht.released hf⟩

/-- A new file is released. -/
theorem released_of_new : ∃ s s', (fresh formattable_256 0).guardedAll ⟨1000, 1000, 0⟩ FilesGuard
    [.mknod ⟨[47, 97], by decide⟩ 0x81A4] = some s ∧
      s.fsTruncate ⟨[47, 97], by decide⟩ 0 = .ok (0, s') ∧ Released 2 s s' := by
  have hend : ((fresh formattable_256 0).guardedAll ⟨1000, 1000, 0⟩ FilesGuard
      [.mknod ⟨[47, 97], by decide⟩ 0x81A4]).any (fun s => s.inodeMap 2 && !s.isDir 2 &&
        (s.inodes 2).Empty && decide (s.resolve 1 (Path.tokens ⟨[47, 97], by decide⟩) = .inr 2) &&
          returned (s.fsTruncate ⟨[47, 97], by decide⟩ 0) == some 0) = true := by
    decide +kernel
  obtain ⟨s, hs, htest⟩ := (Option.any_eq_true _ _).mp hend
  simp only [Bool.and_eq_true, Bool.not_eq_true', beq_iff_eq, decide_eq_true_eq] at htest
  obtain ⟨⟨⟨⟨hi, hf⟩, he⟩, hr⟩, hret⟩ := htest
  have hwf : Wf s := wf_of_run (run_of_guardedAll hs)
  obtain ⟨s', hs'⟩ := exists_of_returned hret
  exact ⟨s, s', hs, hs', (released_iff hwf.blocks hr hi hf hs').2 he⟩

/-- Truncating the file of one byte at `/a` leaves its block marked. -/
theorem not_released : ¬ ∀ (g : Layout) (s s' : FS g) (path : Path) (i : ℕ), s.SoundBlocks →
    s.resolve 1 path.tokens = .inr i → s.inodeMap i = true → sIsReg (s.inodes i).mode = true →
      s.NoGaps i → s.fsTruncate path 0 = .ok (0, s') → Released i s s' := by
  intro hall
  have hend : ((fresh formattable_256 0).guardedAll ⟨1000, 1000, 0⟩ FilesGuard
      [.mknod ⟨[47, 97], by decide⟩ 0x81A4,
        .write ⟨[47, 97], by decide⟩ (fun _ => 1) 1 0]).any (fun s => s.inodeMap 2 &&
          sIsReg (s.inodes 2).mode && !s.isDir 2 && (s.inodes 2).directAt 0 != 0 &&
          ((s.inodes 2).setDirect 0 0).Empty &&
          decide (s.resolve 1 (Path.tokens ⟨[47, 97], by decide⟩) = .inr 2) &&
          returned (s.fsTruncate ⟨[47, 97], by decide⟩ 0) == some 0) = true := by
    decide +kernel
  obtain ⟨s, hs, htest⟩ := (Option.any_eq_true _ _).mp hend
  simp only [Bool.and_eq_true, Bool.not_eq_true', beq_iff_eq, bne_iff_ne, decide_eq_true_eq] at htest
  obtain ⟨⟨⟨⟨⟨⟨hi, hreg⟩, hf⟩, h0⟩, he⟩, hr⟩, hret⟩ := htest
  have hwf : Wf s := wf_of_run (run_of_guardedAll hs)
  obtain ⟨s', hs'⟩ := exists_of_returned hret
  -- the one pointer is the first
  have hgaps : s.NoGaps 2 := by
    intro σ hσ y hy
    have hzero := he.pointer s.disk σ
    cases σ with
    | direct k =>
      have hk : k ≠ 0 := (Nat.zero_le y).trans_lt hy |>.ne'
      rw [Inode.pointer, Inode.directAt_setDirect _ _ _ (by decide), if_neg hk] at hzero
      exact absurd hzero hσ
    | indir1 | level1 | indir2 | outer | inner => exact absurd hzero hσ
  have hrel := hall _ s s' _ 2 hwf.blocks hr hi hreg hgaps hs'
  have ht := truncated_of_fsTruncate hwf.blocks hr hi hs'
  have hempty := ht.empty_of_released hwf.blocks hi hf hrel
  exact h0 (hempty.pointer s.disk (.direct 0))

end FS

end Fsx600
