import Fsx600.Model.Path

/-!
# The operations that report

`fs_readdir` hands each valid entry of a directory to a `filler` with the attributes of the
inode it names.  It changes nothing and ignores what the filler returns, so the calls of the
filler are all there is to it: the name that stands at `fd->name` and the filled-in
`struct stat`, one pair for each call, in order.

`fs_statfs` fills in five fields of a `struct statvfs`.  It computes in `int` and stores in
unsigned fields of 64 bits.  Where `max_num_blocks` is negative the layout has a zero in its
place; `mkfs-x6` writes no such image.
-/

namespace Fsx600

namespace FS

variable {g : Layout}

/-- The loop of `fs_readdir` over the slots of a directory block. -/
def readdirLoop (s : FS g) (block : Block) : List ℕ → Except Fault (List (Name × Stat))
  | [] => .ok []
  | i :: rest =>
    if (block.dirent i).valid then do
      let inode ← s.inode (block.dirent i).inode.toNat
      let name ← bufferString ((List.range 28).map (block.dirent i).nameByte)
      let filled ← s.readdirLoop block rest
      .ok ((name, fsSetSuperbockAttrs inode (block.dirent i).inode.toNat) :: filled)
    else s.readdirLoop block rest

/-- `fs_readdir`: the return code and the calls of the filler. -/
def fsReaddir (s : FS g) (path : Path) : Except Fault (ℤ × List (Name × Stat)) := do
  match ← s.fsGetattr path with
  | .inl ret => .ok (ret, [])
  | .inr sb => do
    let inode ← s.inode sb.ino
    if !sIsDir inode.mode then .ok (-ENOTDIR, [])
    else do
      let block ← s.readBlock (inode.directAt 0).toNat
      let filled ← s.readdirLoop block (List.range 32)
      .ok (0, filled)

end FS

/-- The fields of `struct statvfs` that `fs_statfs` fills in. -/
structure Statvfs where
  bsize : UInt64
  blocks : UInt64
  bfree : UInt64
  bavail : UInt64
  namemax : UInt64

namespace FS

variable {g : Layout}

/-- `fs_statfs`: the return code and the filled-in `struct statvfs`. -/
def fsStatfs (s : FS g) : Except Fault (ℤ × Statvfs) := do
  -- the bound is the size of the bitmap in bytes, and what is counted are the clear bits
  let bound := Int32.ofNat g.blockMapSz * 1024
  let cntOffset ← FirstFit.count .mapIndex g.blockBits s.blockMap (bound.toInt - 1).toNat 1 0
  let blocks := Int32.ofNat g.maxNumBlocks -
    (1 + Int32.ofNat g.blockMapSz + Int32.ofNat g.inodeMapSz + Int32.ofNat g.inodeRegSz)
  let bfree := blocks.toInt64.toUInt64 - UInt64.ofNat cntOffset
  .ok (0, { bsize := 1024, blocks := blocks.toInt64.toUInt64, bfree, bavail := bfree, namemax := 27 })

end FS

end Fsx600
