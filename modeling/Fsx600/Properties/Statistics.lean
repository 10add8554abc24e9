import Fsx600.Model.Reports
import Fsx600.Spec.Effects
import Fsx600.Spec.DiskFull
import Fsx600.Properties.ReadBounds

/-!
# Free-space statistics

`fs_statfs` is to report `f_bfree = f_blocks - blocks used`, as its comment says.  What its loop
counts are the clear bits of the block map, not the set ones; and it stops after
`block_map_sz * FS_BLOCK_SIZE` of them, which is the size of the bitmap in bytes.

* `handsOut_iff`: `get_free_block` succeeds once for each free block, and then no more;
* `statistics_iff_of_run`: `f_blocks` is right, and the number of free blocks is right exactly in
  the states where the two numbers that the loop mixes up are equal;
* `not_inBalance_of_lt`: on an image of fewer than 518 blocks they never are.
-/

namespace Fsx600

open Checked Function GuardedRun Mkfs

namespace FS

variable {g : Layout} {s s' : FS g}

/-! ## The allocator -/

/-- `get_free_block`, called again and again, succeeds `k` times before it reports `-ENOSPC`. -/
def HandsOut : ℕ → FS g → Prop
  | 0, s => s.getFreeBlock = .ok none
  | k + 1, s => ∃ b t, s.getFreeBlock = .ok (some (b, t)) ∧ HandsOut k t

/-- What is handed out is one of the free blocks. -/
theorem freeCount_setBlockBit {b : ℕ} (hb : s.Free b) :
    (s.setBlockBit b true).freeCount + 1 = s.freeCount :=
  FirstFit.card_clear_mark (FirstFit.mem_clear.2 hb)

theorem handsOut_iff (hg : g.Sized) {k : ℕ} : HandsOut k s ↔ k = s.freeCount := by
  induction k generalizing s with
  | zero =>
    obtain ⟨o, ho⟩ := getFreeBlock_returns hg s
    rw [HandsOut, ho]
    rcases getFreeBlock_ok ho with ⟨rfl, hfull⟩ | ⟨b, hb, -, rfl⟩
    · exact iff_of_true rfl (freeCount_eq_zero hfull).symm
    · exact iff_of_false (by simp) (freeCount_pos hb).ne
  | succ k ih =>
    obtain ⟨o, ho⟩ := getFreeBlock_returns hg s
    rw [HandsOut, ho]
    rcases getFreeBlock_ok ho with ⟨rfl, hfull⟩ | ⟨b, hb, -, rfl⟩
    · rw [freeCount_eq_zero hfull]
      simp
    · have hcount := freeCount_setBlockBit hb
      have hnext : HandsOut k (s.setBlockBit b true) ↔ k + 1 = s.freeCount := by
        rw [ih]
        omega
      rw [← hnext]
      constructor
      · rintro ⟨b', t, heq, ht⟩
        obtain ⟨rfl, rfl⟩ := Prod.mk.inj (Option.some.inj (Except.ok.inj heq))
        exact ht
      · exact fun ht => ⟨b, _, rfl, ht⟩

/-! ## The block map outside the data region -/

/-- The blocks before the data region are marked, and nothing is past the end of the image. -/
structure MapBounds (s : FS g) : Prop where
  low : ∀ b < g.startBlock, s.blockMap b = true
  high : ∀ b, g.maxNumBlocks ≤ b → s.blockMap b = false

theorem kept_mapBounds : Kept fun _ _ _ (s : FS g) => MapBounds s where
  takeInode := fun h _ => ⟨h.low, h.high⟩
  dropInode := fun h => ⟨h.low, h.high⟩
  markBlock := fun {_ _ _ s k} h hk => by
    refine ⟨fun b hb => ?_, fun b hb => ?_⟩
    · exact (update_apply ..).trans (by rw [h.low b hb, ite_self])
    · exact (update_of_ne (by have := hk.2.1; omega) ..).trans (h.high b hb)
  clearBlock := fun {_ _ _ s k} h hk => by
    refine ⟨fun b hb => ?_, fun b hb => ?_⟩
    · exact (update_of_ne (by omega) ..).trans (h.low b hb)
    · exact (update_apply ..).trans (by rw [h.high b hb, ite_self])
  aheadBlock := id
  setInode := fun h => ⟨h.low, h.high⟩
  writeInodeMap := fun h => ⟨h.low, h.high⟩
  writeBlockMap := fun h => ⟨h.low, h.high⟩
  writeAllInodes := fun h => ⟨h.low, h.high⟩
  putBlock := fun h => ⟨h.low, h.high⟩

/-- What the loop of `fs_statfs` finds: the free blocks that it comes to, and the bits past the
end of the image. -/
theorem MapBounds.card_clear (h : MapBounds s) (hs : g.startBlock ≤ g.maxNumBlocks) {m : ℕ}
    (hm : g.startBlock ≤ m) :
    (FirstFit.clear s.blockMap 1 m).card =
      (FirstFit.clear s.blockMap g.startBlock (min g.maxNumBlocks m)).card + (m - g.maxNumBlocks) := by
  have hlow : FirstFit.clear s.blockMap 1 g.startBlock = ∅ :=
    FirstFit.clear_eq_empty fun b _ hb => h.low b hb
  rw [← FirstFit.card_clear_add_card_clear g.startBlock_pos hm, hlow, Finset.card_empty, Nat.zero_add]
  rcases le_total m g.maxNumBlocks with hle | hle
  · rw [min_eq_right hle]
    omega
  · rw [min_eq_left hle]
    rw [← FirstFit.card_clear_add_card_clear hs hle,
      FirstFit.card_clear_of_clear fun b hb _ => h.high b hb]

/-! ## The statistics -/

/-- `f_blocks` is the number of blocks in the data region and `f_bfree = f_bavail` that of the
free ones; so many times `get_free_block` succeeds. -/
structure StatisticsRight (s : FS g) (st : Statvfs) : Prop where
  blocks : st.blocks.toNat = (Finset.Ico g.startBlock g.maxNumBlocks).card
  bfree : st.bfree.toNat = s.freeCount
  bavail : st.bavail = st.bfree
  le : st.bfree ≤ st.blocks
  handsOut : HandsOut st.bfree.toNat s

/-- As many free blocks with a number below `block_map_sz * 1024`, and bits below that past the end
of the image, as there are blocks in use. -/
def InBalance (s : FS g) : Prop :=
  (FirstFit.clear s.blockMap g.startBlock (min g.maxNumBlocks (1024 * g.blockMapSz))).card +
    (1024 * g.blockMapSz - g.maxNumBlocks) = s.usedCount

end FS

open FS

variable {n : ℕ}

namespace Mkfs

theorem sized_layout (h : Formattable n) : (layout h).Sized := ⟨le_nMapBlks n, le_rfl⟩

theorem nMapBlks_pos (h : Formattable n) : 0 < nMapBlks n := by
  have := h.blocks_ge
  have := le_nMapBlks n
  omega

theorem nMapBlks_lt (h : Formattable n) : 1024 * nMapBlks n < 2 ^ 31 := by
  have := h.bytes_lt
  rw [nMapBlks, divRoundUp]
  omega

/-- The loop of `fs_statfs` comes to the data region. -/
theorem rootdirBase_le (h : Formattable n) : rootdirBase n ≤ 1024 * nMapBlks n := by
  have := h.blocks_ge
  rw [rootdirBase_eq, nInoMapBlks, nMapBlks, nInoBlks, nInos, divRoundUp, divRoundUp, divRoundUp]
  omega

theorem mapBounds_fresh (h : Formattable n) (t : UInt32) : (fresh h t).MapBounds where
  low := fun _ hb => decide_eq_true (Nat.le_of_lt hb)
  high := fun _ hb => decide_eq_false (Nat.not_le.2 ((rootdirBase_lt h).trans_le hb))

end Mkfs

/-- What `fs_statfs` reports on an image that `mkfs-x6` has made. -/
theorem fsStatfs_eq (h : Formattable n) (s : FS (layout h)) : s.fsStatfs = .ok (0,
    { bsize := 1024
      blocks := UInt64.ofNat (n - rootdirBase n)
      bfree := UInt64.ofNat (n - rootdirBase n) -
        UInt64.ofNat (FirstFit.clear s.blockMap 1 (1024 * nMapBlks n)).card
      bavail := UInt64.ofNat (n - rootdirBase n) -
        UInt64.ofNat (FirstFit.clear s.blockMap 1 (1024 * nMapBlks n)).card
      namemax := 27 }) := by
  have hroot := rootdirBase_lt h
  have hlt := h.lt
  have hpos := nMapBlks_pos h
  have hbound : ((Int32.ofNat (layout h).blockMapSz * 1024).toInt - 1).toNat = 1024 * nMapBlks n - 1 := by
    have hmul : Int32.ofNat (layout h).blockMapSz * 1024 = Int32.ofNat (1024 * nMapBlks n) := by
      rw [Nat.mul_comm, Int32.ofNat_mul]
      rfl
    rw [hmul, Int32.toInt_ofNat_of_lt (nMapBlks_lt h)]
    omega
  have hblocks : (Int32.ofNat (layout h).maxNumBlocks - (1 + Int32.ofNat (layout h).blockMapSz +
      Int32.ofNat (layout h).inodeMapSz + Int32.ofNat (layout h).inodeRegSz)).toInt64.toUInt64 =
        UInt64.ofNat (n - rootdirBase n) := by
    have hsum : (1 + Int32.ofNat (layout h).blockMapSz + Int32.ofNat (layout h).inodeMapSz +
        Int32.ofNat (layout h).inodeRegSz) = Int32.ofNat (rootdirBase n) := by
      rw [rootdirBase_eq, Nat.add_right_comm 1, Int32.ofNat_add, Int32.ofNat_add, Int32.ofNat_add]
      rfl
    rw [hsum, show (layout h).maxNumBlocks = n from rfl, ← Int32.ofNat_sub _ _ hroot.le,
      Int32.toInt64_ofNat' (show ((n - rootdirBase n : ℕ) : ℤ) ≤ 2147483647 by omega), Int64.toUInt64_ofNat']
  have hcount : FirstFit.count Fault.mapIndex (layout h).blockBits s.blockMap (1024 * nMapBlks n - 1) 1 0 =
      .ok (FirstFit.clear s.blockMap 1 (1024 * nMapBlks n)).card := by
    have hend : 1 + (1024 * nMapBlks n - 1) = 1024 * nMapBlks n := by omega
    have hbits : 1 + (1024 * nMapBlks n - 1) ≤ (layout h).blockBits := by
      change _ ≤ 8192 * nMapBlks n
      omega
    rw [FirstFit.count_eq hbits, hend, Nat.zero_add]
  rw [fsStatfs]
  dsimp only
  rw [hbound, hcount, ok_bind, hblocks]

/-- A difference of `k` that was computed in 64 bits, where what is taken away may be too much. -/
theorem toNat_ofNat_sub_eq_iff {a b k : ℕ} (ha : a < 2 ^ 32) (hb : b < 2 ^ 32) (hk : k ≤ a) :
    (UInt64.ofNat a - UInt64.ofNat b).toNat = k ↔ b + k = a := by
  rw [UInt64.toNat_sub, UInt64.toNat_ofNat', UInt64.toNat_ofNat']
  omega

/-- The statistics in a state whose block map is as it should be outside the data region. -/
theorem statistics_iff (h : Formattable n) {s : FS (layout h)} (hs : s.MapBounds) :
    ∃ st, s.fsStatfs = .ok (0, st) ∧
      st.blocks.toNat = (Finset.Ico (layout h).startBlock (layout h).maxNumBlocks).card ∧
      (StatisticsRight s st ↔ s.InBalance) := by
  have hlt := h.lt
  have hroot := rootdirBase_lt h
  have hbits := nMapBlks_lt h
  have hcount : s.usedCount + s.freeCount = n - rootdirBase n := usedCount_add_freeCount s
  have hcard := FirstFit.card_marked_add_card_clear s.blockMap 1 (1024 * nMapBlks n)
  have hclear : (FirstFit.clear s.blockMap 1 (1024 * nMapBlks n)).card =
      (FirstFit.clear s.blockMap (rootdirBase n) (min n (1024 * nMapBlks n))).card +
        (1024 * nMapBlks n - n) :=
    hs.card_clear hroot.le (rootdirBase_le h)
  have hblocks : (UInt64.ofNat (n - rootdirBase n)).toNat = n - rootdirBase n := by
    rw [UInt64.toNat_ofNat']
    omega
  have hbalance : s.InBalance ↔
      (FirstFit.clear s.blockMap 1 (1024 * nMapBlks n)).card + s.freeCount = n - rootdirBase n := by
    rw [hclear, ← hcount, Nat.add_right_cancel_iff]
    exact Iff.rfl
  have hfree := toNat_ofNat_sub_eq_iff (k := s.freeCount) (show n - rootdirBase n < 2 ^ 32 by omega)
    (show (FirstFit.clear s.blockMap 1 (1024 * nMapBlks n)).card < 2 ^ 32 by omega) (by omega)
  have hico : (Finset.Ico (layout h).startBlock (layout h).maxNumBlocks).card = n - rootdirBase n :=
    Nat.card_Ico ..
  refine ⟨_, fsStatfs_eq h s, by rw [hico, hblocks], ?_⟩
  rw [hbalance, ← hfree]
  constructor
  · exact StatisticsRight.bfree
  · intro hright
    refine ⟨by rw [hico, hblocks], hright, rfl, ?_, ?_⟩
    · rw [UInt64.le_iff_toNat_le, hright, hblocks]
      omega
    · rw [hright]
      exact (handsOut_iff (sized_layout h)).2 rfl

theorem mapBounds_of_run (h : Formattable n) (t : UInt32) {s : FS (layout h)}
    (hrun : Run Step (fun _ _ => True) (fresh h t) s) : s.MapBounds :=
  hrun.invariant (mapBounds_fresh h t) fun _ _ _ hu _ ⟨_, _, hstep⟩ => kept_mapBounds.exec hu hstep

/-- **Free-space statistics** in every state of every run: the number of blocks is right, and the
number of free ones is right exactly when the state is in balance. -/
theorem statistics_iff_of_run (h : Formattable n) (t : UInt32) (s : FS (layout h))
    (hrun : Run Step (fun _ _ => True) (fresh h t) s) :
    ∃ st, s.fsStatfs = .ok (0, st) ∧
      st.blocks.toNat = (Finset.Ico (layout h).startBlock (layout h).maxNumBlocks).card ∧
      (StatisticsRight s st ↔ s.InBalance) :=
  statistics_iff h (mapBounds_of_run h t hrun)

/-- An image of 518 blocks: 506 in the data region, and 506 bits to 1024. -/
theorem formattable_518 : Formattable 518 := by decide

/-- A file of 600 blocks is more than such an image can hold.  Once the disk is full, the
statistics are right. -/
theorem statistics_of_fullRun : ∃ s st, Run Step (fun _ _ => True) (fresh formattable_518 0) s ∧
    s.fsStatfs = .ok (0, st) ∧ st.blocks = 506 ∧ st.bfree = 0 ∧ StatisticsRight s st := by
  have hend : ((fresh formattable_518 0).guardedAll ⟨1000, 1000, 0⟩ AppendGuard
      [.mknod pathA 0x81A4]).any (fun s => !s.isDir 2 && decide (s.resolve 1 pathA.tokens = .inr 2) &&
        decide (s.inodes 2).Empty && (s.inodes 2).size == 0) = true := by
    decide +kernel
  obtain ⟨s, hs, htest⟩ := (Option.any_eq_true _ _).mp hend
  simp only [Bool.and_eq_true, Bool.not_eq_true', beq_iff_eq, decide_eq_true_eq] at htest
  obtain ⟨⟨⟨hf, hr⟩, hempty⟩, hsize⟩ := htest
  have hrun : Run Step AppendGuard (fresh formattable_518 0) s := run_of_guardedAll hs
  have happ := appended_of_run formattable_518 0 hrun
  have hint : (s.inodes 2).size.toInt = 0 := by
    rw [hsize]
    rfl
  have hcount : ∀ u : FS (layout formattable_518), u.usedCount + u.freeCount = 506 :=
    fun u => usedCount_add_freeCount u
  have hneeds : 600 ≤ (s.needs 2 65798 0 0 614400).length :=
    le_length_taken (fun y _ => decide_eq_true (hempty.pointer s.disk _)) (by decide) (by decide)
  have hnot : ¬ s.Enough 2 0 614400 := fun henough => by
    have := hneeds.trans henough
    have := hcount s
    omega
  have hproper : pathA.Proper := by decide +kernel
  obtain ⟨r, t, ht, hfull⟩ := WellFormed.freeCount_of_not_enough ⟨happ.wf, by decide⟩ hproper hr hf
    (by decide) hint.ge (happ.freeZero.zeroTables _) hnot ⟨1000, 1000, 0⟩ fun _ => 1
  have hstep : s.Step (.write pathA (fun _ => 1) 614400 0) t := ⟨⟨1000, 1000, 0⟩, r, ht⟩
  have hrun' : Run Step (fun _ _ => True) (fresh formattable_518 0) t :=
    (hrun.mono fun _ _ _ => trivial).tail trivial hstep
  obtain ⟨st, hst, hblocks, hiff⟩ := statistics_iff_of_run formattable_518 0 t hrun'
  have hright : StatisticsRight t st := hiff.2 (by
    show t.freeCount + 506 = t.usedCount
    have := hcount t
    omega)
  rw [Nat.card_Ico] at hblocks
  have hfree := hright.bfree.trans hfull
  exact ⟨t, st, hrun', hst, UInt64.toNat_inj.1 hblocks, UInt64.toNat_inj.1 hfree, hright⟩

/-- On a small image the bits past its end alone are more than the blocks that can be in use. -/
theorem not_inBalance_of_lt (h : Formattable n) (hn : n < 518) (s : FS (layout h)) : ¬ s.InBalance := by
  intro hbal
  have hcount : s.usedCount + s.freeCount = n - rootdirBase n := usedCount_add_freeCount s
  have hpast : 1024 * nMapBlks n - n ≤ s.usedCount := Nat.le.intro ((Nat.add_comm ..).trans hbal)
  have hpos := nMapBlks_pos h
  have hroot : 2 * n < 1024 + rootdirBase n := by
    have := h.blocks_ge
    rw [rootdirBase_eq, nInoMapBlks, nMapBlks, nInoBlks, nInos, divRoundUp, divRoundUp, divRoundUp]
    omega
  omega

/-- On a new image of 64 blocks 59 are free; `fs_statfs` takes 1019 clear bits from 60 blocks. -/
theorem not_statistics_of_run : ¬ ∀ (n : ℕ) (h : Formattable n) (t : UInt32) (s : FS (layout h)),
    Run Step (fun _ _ => True) (fresh h t) s → ∃ st, s.fsStatfs = .ok (0, st) ∧ StatisticsRight s st := by
  intro hall
  obtain ⟨st, hst, hright⟩ := hall 64 formattable_64 0 _ .refl
  obtain ⟨st', hst', -, hiff⟩ := statistics_iff formattable_64 (mapBounds_fresh formattable_64 0)
  obtain ⟨-, rfl⟩ := Prod.mk.inj (Except.ok.inj (hst.symm.trans hst'))
  exact not_inBalance_of_lt formattable_64 (by decide) _ (hiff.1 hright)

end Fsx600
