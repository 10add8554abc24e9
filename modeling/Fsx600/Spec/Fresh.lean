import Fsx600.Spec.WellFormed
import Fsx600.Model.Format

/-!
# Mounting, and a freshly formatted image

`fs_init` on an image whose superblock describes a layout gives a state of that layout,
`mounted`.

`fs_init` on the image that `mkfs-x6` writes rebuilds what `mkfs-x6` had in memory, and
that is a well-formed state: a root directory without entries, in the first block of the
data region.

`mkfs-x6` computes in `int`, so the image has fewer than `2^31` bytes; and it takes five
blocks to hold a superblock, two bitmaps, an inode block and the root directory.  On
fewer it puts the root directory or its inode past the end of what it writes.
-/

namespace Fsx600

open Checked Ownership

/-! ## Mounting -/

/-- The superblock of an image describes the layout. -/
structure Layout.Describes (g : Layout) (im : Image) : Prop where
  inodeMapSz : (Super.ofBlock (im.block 0)).inodeMapSz.toNat = g.inodeMapSz
  blockMapSz : (Super.ofBlock (im.block 0)).blockMapSz.toNat = g.blockMapSz
  inodeRegSz : (Super.ofBlock (im.block 0)).inodeRegionSz.toNat = g.inodeRegSz
  maxNumBlocks : intNumBlocks (Super.ofBlock (im.block 0)) = g.maxNumBlocks
  nblks : im.nblks = g.nblks

/-- What `fs_init` reads from an image with the layout `g`. -/
def FS.mounted (g : Layout) (im : Image) : FS g where
  disk := im.block
  inodeMap := fun i => decide (i < g.inodeBits) && mapBit (fun k => im.block (1 + k)) i
  blockMap := fun i => decide (i < g.blockBits) && mapBit (fun k => im.block (1 + g.inodeMapSz + k)) i
  inodes := fun i => if i < g.numInodes then
    inodeAt (fun k => im.block (1 + g.inodeMapSz + g.blockMapSz + k)) i else Inode.zero
  trace := []

theorem fsInit_eq {g : Layout} {im : Image} (h : g.Describes im) :
    fsInit im = .ok ⟨g, FS.mounted g im⟩ := by
  have hle := g.regions_le
  obtain ⟨inodeMapSz, blockMapSz, inodeRegSz, maxNumBlocks, nblks, hlt, hregions⟩ := g
  obtain ⟨h1, h2, h3, h4, h5⟩ := h
  dsimp only at h1 h2 h3 h4 h5 hle
  subst h1 h2 h3 h4 h5
  rw [fsInit, dif_neg (Nat.not_le.2 hlt), if_pos (by omega)]
  dsimp only
  rw [dif_pos hle]
  rfl

namespace Mkfs

variable {n : ℕ} {t : UInt32}

/-- A number of blocks that `mkfs-x6` can lay out. -/
structure Formattable (n : ℕ) : Prop where
  blocks_ge : 5 ≤ n
  bytes_lt : n * 1024 < 2 ^ 31

instance (n : ℕ) : Decidable (Formattable n) :=
  decidable_of_iff (5 ≤ n ∧ n * 1024 < 2 ^ 31) ⟨fun h => ⟨h.1, h.2⟩, fun h => ⟨h.1, h.2⟩⟩

theorem Formattable.lt (h : Formattable n) : n < 2 ^ 21 := by
  have := h.bytes_lt
  omega

/-- A small image: 256 blocks and 64 inodes. -/
theorem formattable_256 : Formattable 256 := by decide

/-- A smaller one: 64 blocks and 16 inodes. -/
theorem formattable_64 : Formattable 64 := by decide

theorem nInoMapBlks_pos (h : Formattable n) : 0 < nInoMapBlks n := by
  have := h.blocks_ge
  rw [nInoMapBlks, divRoundUp, nInos]
  omega

theorem nInoBlks_pos (h : Formattable n) : 0 < nInoBlks n := by
  have := h.blocks_ge
  rw [nInoBlks, divRoundUp, nInos]
  omega

/-- The block map has a bit for every block. -/
theorem le_nMapBlks (n : ℕ) : n ≤ 8192 * nMapBlks n := by
  rw [nMapBlks, divRoundUp]
  omega

theorem rootdirBase_eq (n : ℕ) : rootdirBase n = 1 + nInoMapBlks n + nMapBlks n + nInoBlks n := rfl

/-- The root directory lies in the image. -/
theorem rootdirBase_lt (h : Formattable n) : rootdirBase n < n := by
  have := h.blocks_ge
  rw [rootdirBase_eq, nInoMapBlks, nMapBlks, nInoBlks, nInos, divRoundUp, divRoundUp, divRoundUp]
  omega

/-- The image of `n` blocks formatted at time `t`. -/
def formatted (h : Formattable n) (t : UInt32) : Image := image n t (h.lt.trans (by decide))

/-- The layout of a formatted image. -/
def layout (h : Formattable n) : Layout where
  inodeMapSz := nInoMapBlks n
  blockMapSz := nMapBlks n
  inodeRegSz := nInoBlks n
  maxNumBlocks := n
  nblks := n
  nblks_lt := h.lt
  regions_le := (rootdirBase_lt h).le

theorem startBlock_layout (h : Formattable n) : (layout h).startBlock = rootdirBase n := rfl

/-- The state that `fs_init` reads from a formatted image. -/
def fresh (h : Formattable n) (t : UInt32) : FS (layout h) where
  disk := block n t
  inodeMap := inodeMap
  blockMap := blockMap n
  inodes := inodes n t
  trace := []

/-! ## The regions of the image -/

theorem block_inodeMap {k : ℕ} (hk : k < nInoMapBlks n) :
    block n t (1 + k) = mapBlock inodeMap k := by
  have hlt : 1 + k < blockMapBase n := by
    rw [blockMapBase, inodeMapBase]
    omega
  rw [block, if_neg (by omega), if_pos hlt, inodeMapBase, Nat.add_sub_cancel_left]

theorem block_blockMap {k : ℕ} (hk : k < nMapBlks n) :
    block n t (1 + nInoMapBlks n + k) = mapBlock (blockMap n) k := by
  have hbase : blockMapBase n = 1 + nInoMapBlks n := rfl
  have hlt : 1 + nInoMapBlks n + k < inodeBase n := by
    rw [inodeBase, hbase]
    omega
  rw [block, if_neg (by omega), if_neg (by omega), if_pos hlt, hbase, Nat.add_sub_cancel_left]

theorem block_inodes {k : ℕ} (hk : k < nInoBlks n) :
    block n t (1 + nInoMapBlks n + nMapBlks n + k) = inodeBlock (inodes n t) k := by
  have hbase : inodeBase n = 1 + nInoMapBlks n + nMapBlks n := rfl
  have hmap : blockMapBase n ≤ inodeBase n := Nat.le_add_right ..
  have hlt : 1 + nInoMapBlks n + nMapBlks n + k < rootdirBase n := by
    rw [rootdirBase_eq]
    omega
  rw [block, if_neg (by omega), if_neg (by omega), if_neg (by omega), if_pos hlt, hbase,
    Nat.add_sub_cancel_left]

theorem block_data {b : ℕ} (hb : rootdirBase n ≤ b) : block n t b = Block.zero := by
  have h1 : inodeBase n ≤ rootdirBase n := Nat.le_add_right ..
  have h2 : blockMapBase n ≤ inodeBase n := Nat.le_add_right ..
  have h3 : 0 < blockMapBase n := Nat.lt_of_lt_of_le Nat.zero_lt_one (Nat.le_add_right ..)
  rw [block, if_neg (by omega), if_neg (by omega), if_neg (by omega), if_neg (by omega)]

/-- A word of the superblock read back as an `int` number of blocks. -/
theorem toNat_ofNat_of_le (h : Formattable n) {m : ℕ} (hm : m ≤ n) : (UInt32.ofNat m).toNat = m := by
  have := h.lt
  rw [UInt32.toNat_ofNat']
  omega

theorem describes (h : Formattable n) (t : UInt32) : (layout h).Describes (formatted h t) := by
  have hroot := rootdirBase_lt h
  have hregions := rootdirBase_eq n
  have hsuper : Super.ofBlock ((formatted h t).block 0) = super n := Super.ofBlock_block _
  refine ⟨?_, ?_, ?_, ?_, rfl⟩ <;> rw [hsuper]
  · exact toNat_ofNat_of_le h (by omega)
  · exact toNat_ofNat_of_le h (by omega)
  · exact toNat_ofNat_of_le h (by omega)
  · have hn : (super n).numBlocks.toNat = n := toNat_ofNat_of_le h le_rfl
    have := h.lt
    rw [intNumBlocks, cInt_of_lt (by omega), hn, Int.toNat_natCast]
    rfl

/-- Mounting a formatted image rebuilds what `mkfs-x6` had in memory. -/
theorem mounted_formatted (h : Formattable n) (t : UInt32) :
    FS.mounted (layout h) (formatted h t) = fresh h t := by
  have hroot := rootdirBase_lt h
  have himap : (FS.mounted (layout h) (formatted h t)).inodeMap = inodeMap := by
    funext i
    change (decide (i < 8192 * nInoMapBlks n) && mapBit (fun k => block n t (1 + k)) i) = inodeMap i
    have := nInoMapBlks_pos h
    by_cases hi : i < 8192 * nInoMapBlks n
    · rw [decide_eq_true hi, Bool.true_and, forall_eq_mapBlock_iff.1 (fun _ => block_inodeMap) i hi]
    · rw [decide_eq_false hi, Bool.false_and, inodeMap]
      simp
      omega
  have hbmap : (FS.mounted (layout h) (formatted h t)).blockMap = blockMap n := by
    funext i
    change (decide (i < 8192 * nMapBlks n) &&
      mapBit (fun k => block n t (1 + nInoMapBlks n + k)) i) = blockMap n i
    have := le_nMapBlks n
    by_cases hi : i < 8192 * nMapBlks n
    · rw [decide_eq_true hi, Bool.true_and, forall_eq_mapBlock_iff.1 (fun _ => block_blockMap) i hi]
    · rw [decide_eq_false hi, Bool.false_and, blockMap]
      simp
      omega
  have hino : (FS.mounted (layout h) (formatted h t)).inodes = inodes n t := by
    funext i
    change (if i < 16 * nInoBlks n then
      inodeAt (fun k => block n t (1 + nInoMapBlks n + nMapBlks n + k)) i else Inode.zero) = _
    have := nInoBlks_pos h
    by_cases hi : i < 16 * nInoBlks n
    · rw [if_pos hi, forall_eq_inodeBlock_iff.1 (fun _ => block_inodes) i hi]
    · rw [if_neg hi, inodes, if_neg (by omega)]
  rw [fresh, ← himap, ← hbmap, ← hino]
  rfl

/-- **Mounting a formatted image.** -/
theorem fsInit_formatted (h : Formattable n) (t : UInt32) :
    fsInit (formatted h t) = .ok ⟨layout h, fresh h t⟩ := by
  rw [fsInit_eq (describes h t), mounted_formatted]

/-! ## It is well formed -/

theorem inodes_fresh_one (h : Formattable n) (t : UInt32) : (fresh h t).inodes 1 = rootInode n t := rfl

theorem inodes_fresh_of_ne (h : Formattable n) (t : UInt32) {i : ℕ} (hi : i ≠ 1) :
    (fresh h t).inodes i = Inode.zero :=
  if_neg hi

/-- `direct[0]` of the root directory, read back. -/
theorem toNat_rootInode (h : Formattable n) (t : UInt32) :
    ((rootInode n t).directAt 0).toNat = rootdirBase n :=
  toNat_ofNat_of_le h (rootdirBase_lt h).le

theorem isDir_fresh (h : Formattable n) (t : UInt32) (i : ℕ) : (fresh h t).isDir i = (i == 1) := by
  have hroot : sIsDir 0x41FF = true := by decide
  have hzero : sIsDir 0 = false := by decide
  by_cases hi : i = 1
  · subst hi
    exact hroot
  · rw [FS.isDir, inodes_fresh_of_ne h t hi, beq_eq_false_iff_ne.2 hi]
    exact hzero

theorem inodeMap_fresh (h : Formattable n) (t : UInt32) (i : ℕ) :
    (fresh h t).inodeMap i = true ↔ i = 0 ∨ i = 1 := by
  simp [fresh, inodeMap]

theorem allocDir_fresh (h : Formattable n) (t : UInt32) (d : ℕ) : (fresh h t).AllocDir d ↔ d = 1 := by
  rw [FS.AllocDir, inodeMap_fresh, isDir_fresh, beq_iff_eq]
  omega

/-- The root directory is empty. -/
theorem entry_fresh (h : Formattable n) (t : UInt32) (j : ℕ) :
    (fresh h t).entry 1 j = Dirent.zero := by
  have hblock : (fresh h t).disk (rootdirBase n) = Block.zero := block_data le_rfl
  rw [FS.entry, FS.dirBlock, inodes_fresh_one, toNat_rootInode h, hblock, Block.dirent_zero]

theorem not_edge_fresh (h : Formattable n) (t : UInt32) {d j c : ℕ} : ¬ (fresh h t).Edge d j c := by
  rintro ⟨hd, -, hv, -⟩
  rw [allocDir_fresh] at hd
  subst hd
  rw [entry_fresh] at hv
  exact Bool.false_ne_true hv

/-- The one block that is referenced is that of the root directory. -/
theorem owner_fresh (h : Formattable n) (t : UInt32) {x : ℕ × Slot} {b : ℕ} :
    (fresh h t).owner x = some b ↔ x = (1, .direct 0) ∧ b = rootdirBase n := by
  obtain ⟨i, σ⟩ := x
  have hdir : (fresh h t).isDir 1 = true := isDir_fresh h t 1
  rw [FS.owner_eq_some, inodeMap_fresh]
  constructor
  · rintro ⟨rfl | rfl, hr⟩
    · rw [FS.refers_eq_some_of_file (isDir_fresh h t 0), inodes_fresh_of_ne h t (by omega),
        Inode.Empty.pointer ⟨rfl, rfl, rfl⟩] at hr
      exact absurd rfl hr.1
    · rw [FS.refers, if_pos hdir, inodes_fresh_one, toNat_rootInode h] at hr
      split at hr
      · next hσ => exact ⟨by rw [hσ], (Option.some.inj hr).symm⟩
      · exact absurd hr (by simp)
  · rintro ⟨hx, rfl⟩
    obtain ⟨rfl, rfl⟩ := Prod.mk.inj hx
    refine ⟨Or.inr rfl, ?_⟩
    rw [FS.refers_of_isDir hdir, inodes_fresh_one, toNat_rootInode h]

theorem inUse_fresh (h : Formattable n) (t : UInt32) (b : ℕ) :
    (fresh h t).InUse b ↔ b = rootdirBase n := by
  have hroot := rootdirBase_lt h
  have hmax : (layout h).maxNumBlocks = n := rfl
  have hmap : (fresh h t).blockMap b = decide (b ≤ rootdirBase n) := rfl
  rw [FS.InUse, startBlock_layout, hmax, hmap, decide_eq_true_eq]
  omega

theorem sound_fresh (h : Formattable n) (t : UInt32) :
    Sound (fresh h t).owner (fresh h t).InUse where
  used := fun hx => (inUse_fresh h t _).2 ((owner_fresh h t).1 hx).2
  inj := fun hx hy => ((owner_fresh h t).1 hx).1.trans ((owner_fresh h t).1 hy).1.symm

/-- Nothing but the root directory is marked in the data region. -/
theorem covered_fresh (h : Formattable n) (t : UInt32) :
    Covered (fresh h t).owner (fresh h t).InUse := fun b hb =>
  ⟨(1, .direct 0), (owner_fresh h t).2 ⟨rfl, (inUse_fresh h t b).1 hb⟩⟩

theorem wf_fresh (h : Formattable n) (t : UInt32) : (fresh h t).Wf where
  numBlocks_le_bits := le_nMapBlks n
  numBlocks_le_nblks := le_rfl
  bits_pos := by
    have := nInoMapBlks_pos h
    change 0 < 8192 * nInoMapBlks n
    omega
  bit_zero := rfl
  bit_one := rfl
  root_isDir := isDir_fresh h t 1
  edge_child := fun he => absurd he (not_edge_fresh h t)
  edge_isDir := fun he => absurd he (not_edge_fresh h t)
  named_once := fun c hc hb => by
    rw [inodeMap_fresh] at hb
    omega
  reachable := fun d hd => by
    rw [(allocDir_fresh h t d).1 hd]
  sound := sound_fresh h t
  name_nul := fun d j hd _ => by
    rw [(allocDir_fresh h t d).1 hd, entry_fresh, Dirent.nameByte, dif_pos (by omega)]
    rfl
  slot_order := fun d j k hd _ _ hv => by
    rw [(allocDir_fresh h t d).1 hd, entry_fresh] at hv
    exact absurd hv Bool.false_ne_true

theorem wellFormed_fresh (h : Formattable n) (t : UInt32) (hino : 64 ≤ (layout h).numInodes) :
    (fresh h t).WellFormed :=
  ⟨wf_fresh h t, hino⟩

end Mkfs

end Fsx600
