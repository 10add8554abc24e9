import Fsx600.Spec.Fresh

/-!
# The formatter and the mounted file system agree

`mkfs-x6` lays the regions out one after another, with sizes that it rounds up from the
number of blocks; `fs_init` adds the sizes of the superblock up again by itself.  The two
come to the same regions for every number of blocks that can be formatted, the regions fit
in the image, and what `fs_init` reads from them is the file system with an empty root
directory.

A region is a first block and a number of blocks.  That no two of them overlap needs no
arithmetic: each begins where the one before it ends.
-/

namespace Fsx600

open Mkfs

/-- Consecutive runs of blocks: each begins where the one before it ends. -/
def Consecutive (regions : List (ℕ × ℕ)) : Prop :=
  regions.IsChain fun r r' => r.1 + r.2 = r'.1

/-- Two runs of blocks without a common block. -/
def Apart (r r' : ℕ × ℕ) : Prop := ∀ b, ¬ ((r.1 ≤ b ∧ b < r.1 + r.2) ∧ r'.1 ≤ b ∧ b < r'.1 + r'.2)

/-- The runs after the first one of a consecutive list begin past its end. -/
theorem Consecutive.le_of_mem {r r' : ℕ × ℕ} {regions : List (ℕ × ℕ)}
    (h : Consecutive (r :: regions)) (hr' : r' ∈ regions) : r.1 + r.2 ≤ r'.1 := by
  induction regions generalizing r with
  | nil => simp at hr'
  | cons q regions ih =>
    obtain ⟨hq, hrest⟩ := List.isChain_cons_cons.1 h
    rcases List.mem_cons.1 hr' with rfl | hr'
    · exact hq.le
    · have := ih hrest hr'
      omega

theorem Consecutive.pairwise_apart {regions : List (ℕ × ℕ)} (h : Consecutive regions) :
    regions.Pairwise Apart := by
  induction regions with
  | nil => exact List.Pairwise.nil
  | cons r regions ih =>
    refine List.Pairwise.cons (fun r' hr' b hb => ?_) (ih h.tail)
    have := h.le_of_mem hr'
    omega

namespace Mkfs

variable {n : ℕ}

/-- The superblock, the inode map, the block map, the inode region and the root directory,
where `mkfs-x6` puts them. -/
def regions (n : ℕ) : List (ℕ × ℕ) :=
  [(0, 1), (inodeMapBase, nInoMapBlks n), (blockMapBase n, nMapBlks n), (inodeBase n, nInoBlks n),
    (rootdirBase n, 1)]

theorem consecutive_regions (n : ℕ) : Consecutive (regions n) := by
  unfold Consecutive regions
  simp [inodeMapBase, blockMapBase, inodeBase, rootdirBase]

theorem regions_le (h : Formattable n) : ∀ r ∈ regions n, r.1 + r.2 ≤ n := by
  have hroot := rootdirBase_lt h
  have hend : ∀ r ∈ regions n, r.1 + r.2 ≤ rootdirBase n + 1 := by
    unfold regions
    simp [inodeMapBase, blockMapBase, inodeBase, rootdirBase]
    omega
  intro r hr
  have := hend r hr
  omega

theorem nInos_le_inodeMap (n : ℕ) : n / 4 ≤ 8192 * nInoMapBlks n := by
  rw [nInoMapBlks, divRoundUp, nInos]
  omega

theorem nInos_le_inodes (n : ℕ) : n / 4 ≤ 16 * nInoBlks n := by
  rw [nInoBlks, divRoundUp, nInos]
  omega

/-- The regions lie one after another in the image and are large enough for what they hold. -/
structure Fits (n : ℕ) : Prop where
  consecutive : Consecutive (regions n)
  apart : (regions n).Pairwise Apart
  inside : ∀ r ∈ regions n, r.1 + r.2 ≤ n
  blockMap : n ≤ 8192 * nMapBlks n
  inodeMap : n / 4 ≤ 8192 * nInoMapBlks n
  inodes : n / 4 ≤ 16 * nInoBlks n
  rootInode : 1 < 16 * nInoBlks n

theorem Formattable.fits (h : Formattable n) : Fits n where
  consecutive := consecutive_regions n
  apart := (consecutive_regions n).pairwise_apart
  inside := regions_le h
  blockMap := le_nMapBlks n
  inodeMap := nInos_le_inodeMap n
  inodes := nInos_le_inodes n
  rootInode := by
    have := nInoBlks_pos h
    omega

end Mkfs

/-- The same five regions, where `fs_init` finds them. -/
def Layout.regions (g : Layout) : List (ℕ × ℕ) :=
  [(0, 1), (1, g.inodeMapSz), (1 + g.inodeMapSz, g.blockMapSz),
    (1 + g.inodeMapSz + g.blockMapSz, g.inodeRegSz), (g.startBlock, 1)]

/-- A mounted file system that holds an empty root directory and nothing else. -/
structure FS.Blank {g : Layout} (s : FS g) : Prop where
  blockMap : ∀ b, s.blockMap b = true ↔ b ≤ g.startBlock
  inodeMap : ∀ i, s.inodeMap i = true ↔ i = 0 ∨ i = 1
  root_isDir : s.isDir 1 = true
  root_block : ((s.inodes 1).directAt 0).toNat = g.startBlock
  root_empty : ∀ j < 32, ((s.disk g.startBlock).dirent j).valid = false

namespace Mkfs

variable {n : ℕ}

theorem blank_fresh (h : Formattable n) (t : UInt32) : (fresh h t).Blank where
  blockMap := fun _ => decide_eq_true_iff
  inodeMap := inodeMap_fresh h t
  root_isDir := isDir_fresh h t 1
  root_block := toNat_rootInode h t
  root_empty := fun j _ => by
    have hblock : (fresh h t).disk (layout h).startBlock = Block.zero := block_data le_rfl
    rw [hblock, Block.dirent_zero]
    rfl

/-- **`mkfs-x6` and `fs_init` agree on the layout.** -/
theorem fsInit_agrees (h : Formattable n) (t : UInt32) : Fits n ∧
    ∃ g s, fsInit (formatted h t) = .ok ⟨g, s⟩ ∧ g.regions = regions n ∧
      g.startBlock = rootdirBase n ∧ g.maxNumBlocks = n ∧ s.Blank :=
  ⟨h.fits, layout h, fresh h t, fsInit_formatted h t, rfl, rfl, rfl, blank_fresh h t⟩

/-- An image of 1025 blocks: one inode block more than 1024 blocks need. -/
theorem fsInit_agrees_1025 : Fits 1025 ∧
    ∃ g s, fsInit (formatted (n := 1025) (by decide) 0) = .ok ⟨g, s⟩ ∧ g.regions = regions 1025 ∧
      g.startBlock = rootdirBase 1025 ∧ g.maxNumBlocks = 1025 ∧ s.Blank :=
  fsInit_agrees (by decide) 0

end Mkfs

end Fsx600
