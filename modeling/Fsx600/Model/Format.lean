import Fsx600.Model.State

/-!
# Formatting and mounting

`main` of `mkfs-x6.c`, which lays a file system out in memory and writes it, and
`fs_init`, which reads one back.  Each computes where the regions begin by itself.
-/

namespace Fsx600

/-- The image device: what `image_create` opened.  It stores the number of blocks in an `int`. -/
structure Image where
  nblks : ℕ
  block : ℕ → Block
  nblks_lt : nblks < 2 ^ 31

/-! ## `mkfs-x6` -/

namespace Mkfs

/-- `DIV_ROUND_UP`. -/
def divRoundUp (n m : ℕ) : ℕ := (n + m - 1) / m

variable (nBlks : ℕ)

def nMapBlks : ℕ := divRoundUp nBlks (8 * 1024)
def nInos : ℕ := nBlks / 4
def nInoMapBlks : ℕ := divRoundUp (nInos nBlks) (8 * 1024)
def nInoBlks : ℕ := divRoundUp (nInos nBlks * 64) 1024

def inodeMapBase : ℕ := 1
def blockMapBase : ℕ := inodeMapBase + nInoMapBlks nBlks
def inodeBase : ℕ := blockMapBase nBlks + nMapBlks nBlks
def rootdirBase : ℕ := inodeBase nBlks + nInoBlks nBlks

/-- The superblock. -/
def super : Super where
  magic := 0x37363030
  inodeMapSz := UInt32.ofNat (nInoMapBlks nBlks)
  inodeRegionSz := UInt32.ofNat (nInoBlks nBlks)
  blockMapSz := UInt32.ofNat (nMapBlks nBlks)
  numBlocks := UInt32.ofNat nBlks
  rootInode := 1

/-- The inode map: bits 0 and 1. -/
def inodeMap : ℕ → Bool := fun i => i == 0 || i == 1

/-- The block map: every bit up to the root directory. -/
def blockMap : ℕ → Bool := fun i => i ≤ rootdirBase nBlks

/-- Inode 1, the root directory. -/
def rootInode (t : UInt32) : Inode :=
  { Inode.zero with
    uid := 1001, gid := 125, mode := 0x41FF, ctime := t, mtime := t, size := 1024,
    direct := fun k => if k.val = 0 then UInt32.ofNat (rootdirBase nBlks) else 0 }

/-- The inode region. -/
def inodes (t : UInt32) : ℕ → Inode := fun i => if i = 1 then rootInode nBlks t else Inode.zero

/-- The blocks that `mkfs-x6` writes for an image of `nBlks` blocks at time `t`. -/
def block (t : UInt32) (b : ℕ) : Block :=
  if b = 0 then (super nBlks).block
  else if b < blockMapBase nBlks then mapBlock inodeMap (b - inodeMapBase)
  else if b < inodeBase nBlks then mapBlock (blockMap nBlks) (b - blockMapBase nBlks)
  else if b < rootdirBase nBlks then inodeBlock (inodes nBlks t) (b - inodeBase nBlks)
  else Block.zero

/-- The image of `nBlks` blocks formatted at time `t`. -/
def image (t : UInt32) (h : nBlks < 2 ^ 31) : Image := ⟨nBlks, block nBlks t, h⟩

end Mkfs

/-! ## `fs_init` -/

/-- `max_num_blocks = sb.num_blocks`, an `int`. -/
def intNumBlocks (sb : Super) : ℕ := (cInt sb.numBlocks).toNat

/-- `fs_init`, on images of less than 2 GiB: a layout and the state read from the image. -/
def fsInit (im : Image) : Except Fault ((g : Layout) × FS g) :=
  if hsize : 2 ^ 21 ≤ im.nblks then .error (.imageSize im.nblks)
  else if 0 < im.nblks then
    let sb := Super.ofBlock (im.block 0)
    let inodeMapSz := sb.inodeMapSz.toNat
    let blockMapSz := sb.blockMapSz.toNat
    let inodeRegSz := sb.inodeRegionSz.toNat
    if h : 1 + inodeMapSz + blockMapSz + inodeRegSz ≤ im.nblks then
      .ok ⟨⟨inodeMapSz, blockMapSz, inodeRegSz, intNumBlocks sb, im.nblks, Nat.not_le.1 hsize, h⟩,
        { disk := im.block
          inodeMap := fun i => decide (i < 8192 * inodeMapSz) && mapBit (fun k => im.block (1 + k)) i
          blockMap := fun i => decide (i < 8192 * blockMapSz) &&
            mapBit (fun k => im.block (1 + inodeMapSz + k)) i
          inodes := fun i => if i < 16 * inodeRegSz then
            inodeAt (fun k => im.block (1 + inodeMapSz + blockMapSz + k)) i else Inode.zero
          trace := [] }⟩
    else .error (.badBlock 1 (inodeMapSz + blockMapSz + inodeRegSz))
  else .error (.badBlock 0 1)

/-- The image under a mounted file system. -/
def FS.image {g : Layout} (s : FS g) : Image := ⟨g.nblks, s.disk, g.nblks_lt.trans (by decide)⟩

end Fsx600
