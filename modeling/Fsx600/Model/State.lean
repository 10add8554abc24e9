import Fsx600.Disk.Records
import Fsx600.Lib.FirstFit

/-!
# The state of a mounted file system

The globals of `main.c` and the operations that touch them directly: the block
device, the `fd_set` macros on the two bitmaps, the inode table, and the six
helpers between `write_inode_map` and `write_all_inodes`.

## What can stop the program

`image_read` and `image_write` assert that the blocks they are given lie in the
image, and an index past the end of one of the arrays is undefined behaviour.
Both are a `Fault`: a function of the model either returns what the C function
returns, or it faults, and then there is no next state.

## The layout is a parameter

`fs_init` sets the sizes once and nothing changes them, so a state is a state
*of* a `Layout`.  The layout carries the assertions that `fs_init` passed when it
read the two bitmaps and the inode region; the flushes that write the same
regions back cannot fail them, which is why they are plain functions.

The image has less than 2 GiB.  On larger ones `image.c` multiplies block numbers
by 1024 in an `int` that does not hold the product, so that an access can stop at a
block of the image, or reach another one.
-/

namespace Fsx600

open Function

/-- The ways a run can stop short of a return. -/
inductive Fault where
  /-- The assertion of `image_read` / `image_write`: `len` blocks from `first` on
  do not lie in the image. -/
  | badBlock (first len : ℕ)
  /-- `inodes[i]` outside the inode region. -/
  | inodeIndex (i : ℤ)
  /-- A bit outside a bitmap. -/
  | mapIndex (i : ℕ)
  /-- A token pointer outside `tokens[64]`. -/
  | tokenIndex (i : ℤ)
  /-- A copy or a `strlen` past the end of a name buffer. -/
  | nameBuffer (len : ℕ)
  /-- An image of 2 GiB or more: a limit of the model, which says nothing about what the
  program does with one. -/
  | imageSize (nblks : ℕ)
  deriving DecidableEq

/-- The globals that `fs_init` sets once: `inode_map_sz`, `block_map_sz`,
`inode_reg_sz`, `max_num_blocks` (zero standing for the negative `int`s, which no
loop can tell from it), and `nblks` of the image device. -/
structure Layout where
  inodeMapSz : ℕ
  blockMapSz : ℕ
  inodeRegSz : ℕ
  maxNumBlocks : ℕ
  nblks : ℕ
  /-- The image has less than 2 GiB: `offset*BLOCK_SIZE` in `image_read` and `image_write` is
  an `int`. -/
  nblks_lt : nblks < 2 ^ 21
  /-- The assertions of the reads in `fs_init`. -/
  regions_le : 1 + inodeMapSz + blockMapSz + inodeRegSz ≤ nblks

namespace Layout

variable (g : Layout)

/-- `start_block`. -/
def startBlock : ℕ := 1 + g.inodeMapSz + g.blockMapSz + g.inodeRegSz

/-- The inodes of the region, `INODES_PER_BLK` to a block. -/
def numInodes : ℕ := 16 * g.inodeRegSz

/-- The bits of `inode_map`. -/
def inodeBits : ℕ := 8192 * g.inodeMapSz

/-- The bits of `block_map`. -/
def blockBits : ℕ := 8192 * g.blockMapSz

theorem startBlock_pos : 0 < g.startBlock := by
  rw [startBlock]
  omega

end Layout

/-- The state: the image, the two bitmaps and the inode table in memory.

`trace` is a ghost: the block numbers given to the single-block calls of
`disk->ops->write` so far, newest first.  No function of the model reads it. -/
structure FS (g : Layout) where
  disk : ℕ → Block
  inodeMap : ℕ → Bool
  blockMap : ℕ → Bool
  inodes : ℕ → Inode
  trace : List ℕ

/-- What the calls see of the process that made them: `fuse_get_context()` and
`time(NULL)`. -/
structure Context where
  uid : UInt32
  gid : UInt32
  now : UInt32

/-! ## The return codes -/

abbrev ENOENT : ℤ := 2
abbrev EEXIST : ℤ := 17
abbrev ENOTDIR : ℤ := 20
abbrev EISDIR : ℤ := 21
abbrev EINVAL : ℤ := 22
abbrev ENOSPC : ℤ := 28
abbrev ENOTEMPTY : ℤ := 39

/-! ## File types -/

abbrev S_IFMT : UInt32 := 0xF000
abbrev S_IFDIR : UInt32 := 0x4000
abbrev S_IFREG : UInt32 := 0x8000

/-- `S_ISDIR(mode)`. -/
def sIsDir (mode : UInt32) : Bool := mode &&& S_IFMT == S_IFDIR

/-- `S_ISREG(mode)`. -/
def sIsReg (mode : UInt32) : Bool := mode &&& S_IFMT == S_IFREG

/-- An `int` read from memory that was written as a `uint32_t`. -/
def cInt (w : UInt32) : ℤ := w.toInt32.toInt

theorem cInt_of_lt {w : UInt32} (h : w.toNat < 2 ^ 31) : cInt w = w.toNat := by
  rw [cInt, ← UInt32.ofNat_toNat (x := w), UInt32.toInt32_ofNat', Int32.toInt_ofNat_of_lt h,
    UInt32.ofNat_toNat]

namespace FS

variable {g : Layout}

/-! ## The device -/

/-- `disk->ops->read(disk, blk, 1, block)`. -/
def readBlock (s : FS g) (blk : ℕ) : Except Fault Block :=
  if blk < g.nblks then .ok (s.disk blk) else .error (.badBlock blk 1)

/-- `disk->ops->write(disk, blk, 1, block)`. -/
def writeBlock (s : FS g) (blk : ℕ) (b : Block) : Except Fault (FS g) :=
  if blk < g.nblks then .ok { s with disk := update s.disk blk b, trace := blk :: s.trace }
  else .error (.badBlock blk 1)

/-- `disk->ops->write(disk, first, len, buf)` for a region of the layout. -/
def writeRegion (s : FS g) (first len : ℕ) (f : ℕ → Block) : FS g :=
  { s with disk := fun b => if first ≤ b ∧ b < first + len then f (b - first) else s.disk b }

/-! ## The inode table -/

/-- `inodes[i]`, read. -/
def inode (s : FS g) (i : ℤ) : Except Fault Inode :=
  if 0 ≤ i ∧ i.toNat < g.numInodes then .ok (s.inodes i.toNat) else .error (.inodeIndex i)

/-- `inodes[i] = ino`. -/
def setInode (s : FS g) (i : ℕ) (ino : Inode) : FS g :=
  { s with inodes := update s.inodes i ino }

/-! ## The bitmaps -/

/-- `FD_SET(i, inode_map)` / `FD_CLR(i, inode_map)`. -/
def setInodeBit (s : FS g) (i : ℕ) (v : Bool) : FS g :=
  { s with inodeMap := update s.inodeMap i v }

/-- `FD_SET(i, block_map)` / `FD_CLR(i, block_map)`. -/
def setBlockBit (s : FS g) (i : ℕ) (v : Bool) : FS g :=
  { s with blockMap := update s.blockMap i v }

/-- `FD_ISSET(i, inode_map)`. -/
def inodeBit (s : FS g) (i : ℕ) : Except Fault Bool :=
  if i < g.inodeBits then .ok (s.inodeMap i) else .error (.mapIndex i)

/-! ## The helpers of `main.c` -/

/-- `write_inode_map`. -/
def writeInodeMap (s : FS g) : FS g :=
  s.writeRegion 1 g.inodeMapSz (mapBlock s.inodeMap)

/-- `write_block_map`. -/
def writeBlockMap (s : FS g) : FS g :=
  s.writeRegion (1 + g.inodeMapSz) g.blockMapSz (mapBlock s.blockMap)

/-- `write_all_inodes`. -/
def writeAllInodes (s : FS g) : FS g :=
  s.writeRegion (1 + g.inodeMapSz + g.blockMapSz) g.inodeRegSz (inodeBlock s.inodes)

/-- `free_a_block`. -/
def freeABlock (s : FS g) (bit : ℤ) : Except Fault (FS g) :=
  if bit ≥ g.startBlock then
    if bit.toNat < g.blockBits then .ok (s.setBlockBit bit.toNat false)
    else .error (.mapIndex bit.toNat)
  else .ok s

/-- `get_free_block`; `none` is `-ENOSPC`. -/
def getFreeBlock (s : FS g) : Except Fault (Option (ℕ × FS g)) := do
  let found ← FirstFit.scan .mapIndex g.blockBits s.blockMap (g.maxNumBlocks - g.startBlock)
    g.startBlock
  pure (found.map fun i => (i, s.setBlockBit i true))

/-- `get_free_inode`; `none` is `-ENOSPC`. -/
def getFreeInode (s : FS g) : Except Fault (Option (ℕ × FS g)) := do
  let found ← FirstFit.scan .mapIndex g.inodeBits s.inodeMap 64 0
  pure (found.map fun i => (i, s.setInodeBit i true))

end FS

end Fsx600
