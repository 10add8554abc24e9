import Fsx600.Model.Namespace

/-!
# The operations on contents

`fs_truncate`, `fs_unlink` and `fs_write`.

`fs_write` is one function with three loops, one for each kind of pointer, that are
entered by `goto` and fall through into each other.  Each loop is a function here;
the local variables they share are a `WriteVars`, and what a loop did is a `Flow`:
it jumped to `cleanup`, or it ran out of slots and control goes on below it.  The
text that the three loops repeat (find the block of a slot or allocate one, then
fill it) is written once.
-/

namespace Fsx600

namespace FS

variable {g : Layout}

/-! ## Truncation -/

/-- The first loop of `fs_truncate`, at `i`: it clears a pointer and then frees
what the cleared pointer names. -/
def truncDirect : ℕ → ℕ → FS g → Inode → Except Fault (FS g × Inode)
  | 0, _, s, inode => .ok (s, inode)
  | n + 1, i, s, inode =>
    if inode.directAt i = 0 then .ok (s, inode)
    else do
      let inode := inode.setDirect i 0
      let s ← s.freeABlock (cInt (inode.directAt i))
      truncDirect n (i + 1) s inode

/-- Free the blocks named in a block of pointers, from entry `i` on, up to the
first zero entry. -/
def freeWords (blocks : Block) : ℕ → ℕ → FS g → Except Fault (FS g)
  | 0, _, s => .ok s
  | n + 1, i, s =>
    if blocks.word i = 0 then .ok s
    else do
      let s ← s.freeABlock (cInt (blocks.word i))
      freeWords blocks n (i + 1) s

/-- The loop of `fs_truncate` over `indirect_block_2`, with `blocks` at entry `k`.
The pointer does not move past an entry below `start_block`. -/
def freeTables (blocks : Block) : ℕ → ℕ → FS g → Except Fault (FS g)
  | 0, _, s => .ok s
  | n + 1, k, s =>
    if blocks.word k = 0 then .ok s
    else if cInt (blocks.word k) ≥ g.startBlock then do
      let innerloop ← s.readBlock (blocks.word k).toNat
      let s ← freeWords innerloop 256 0 s
      let s ← s.freeABlock (cInt (blocks.word k))
      freeTables blocks n (k + 1) s
    else freeTables blocks n k s

/-- The part of `fs_truncate` that frees what `indir_1` leads to. -/
def truncIndir1 (s : FS g) (inode : Inode) : Except Fault (FS g) :=
  if g.startBlock ≤ inode.indir1.toNat then do
    let blocks ← s.readBlock inode.indir1.toNat
    freeWords blocks 256 0 s
  else .ok s

/-- The part of `fs_truncate` that frees what `indir_2` leads to. -/
def truncIndir2 (s : FS g) (inode : Inode) : Except Fault (FS g) :=
  if g.startBlock ≤ inode.indir2.toNat then do
    let blocks ← s.readBlock inode.indir2.toNat
    freeTables blocks 256 0 s
  else .ok s

/-- `fs_truncate`. -/
def fsTruncate (s : FS g) (path : Path) (len : ℤ) : Except Fault (ℤ × FS g) := do
  if len ≠ 0 then .ok (-EINVAL, s)
  else do
    match ← s.fsGetattr path with
    | .inl ret => .ok (ret, s)
    | .inr sb => do
      let inode ← s.inode sb.ino
      if sIsDir inode.mode then .ok (-EISDIR, s)
      else do
        let (s, inode) ← truncDirect 6 0 s inode
        let s ← s.truncIndir1 inode
        let s ← s.truncIndir2 inode
        let s := s.writeBlockMap
        .ok (0, (s.setInode sb.ino { inode with size := 0 }).writeAllInodes)

/-! ## Unlinking -/

/-- What the loop of `fs_unlink` comes to. -/
inductive UnlinkScan where
  | isDir
  | found (i : ℕ) (fileNodeNum : ℕ) (fileinode : Inode)
  | missing

/-- The loop of `fs_unlink`, at slot `i`. -/
def unlinkLoop (s : FS g) (block : Block) (last : Name) : ℕ → ℕ → Except Fault UnlinkScan
  | 0, _ => .ok .missing
  | n + 1, i =>
    if (block.dirent i).valid && (block.dirent i).named last then
      if (block.dirent i).isDir then .ok .isDir
      else do
        let fileNodeNum := (block.dirent i).inode.toNat
        let fileinode ← s.inode fileNodeNum
        if ← s.inodeBit fileNodeNum then .ok (.found i fileNodeNum fileinode)
        else s.unlinkLoop block last n (i + 1)
    else s.unlinkLoop block last n (i + 1)

/-- `fs_unlink`. -/
def fsUnlink (c : Context) (s : FS g) (path : Path) : Except Fault (ℤ × FS g) := do
  let (inum, s) ← s.fsTruncate path 0
  if inum < 0 then .ok (inum, s)
  else do
    let (parentInum, _) ← s.getParentInum path
    let last ← getLastOfSplit path
    let parentDir ← s.inode parentInum
    let block ← s.readBlock (parentDir.directAt 0).toNat
    match ← s.unlinkLoop block last 32 0 with
    | .isDir => .ok (-EISDIR, s)
    | .missing => .ok (-ENOENT, s)
    | .found i fileNodeNum fileinode => do
      let s := s.setInodeBit fileNodeNum false
      let s := s.setInode fileNodeNum { fileinode with size := 0, mtime := c.now }
      let block := block.setDirent i { block.dirent i with valid := false }
      let s ← s.writeBlock (parentDir.directAt 0).toNat block
      .ok (0, s.writeAllInodes.writeInodeMap)

/-! ## Writing -/

/-- The local variables of `fs_write` that its loops share: the local copy of the
inode, the rest of the buffer and its length, `offset` and
`total_bytes_written`. -/
structure WriteVars (g : Layout) where
  fs : FS g
  inode : Inode
  buf : ℕ → UInt8
  len : ℕ
  offset : ℕ
  total : ℕ

/-- Where control goes after a loop of `fs_write`. -/
inductive Flow (g : Layout) where
  /-- `goto cleanup` with this value in `total_bytes_written`. -/
  | cleanup (total : ℤ) (fs : FS g)
  /-- On to the code below the loop. -/
  | next (v : WriteVars g)

/-- A block from `get_free_block`, with its bit flushed and its number read once. -/
def newBlock (s : FS g) : Except Fault (Option (UInt32 × FS g)) := do
  match ← s.getFreeBlock with
  | none => .ok none
  | some (ret, s) => do
    let s := s.writeBlockMap
    let _ ← s.readBlock ret
    .ok (some (UInt32.ofNat ret, s))

/-- The head of each loop: the data block that the slot `p` names, or a new one if
the slot is empty.  Gives the block number for the slot (its old value if it had
one), `block`, `total_bytes_in_block` and the state; `none` is `-ENOSPC`. -/
def slotBlock (v : WriteVars g) (p : UInt32) :
    Except Fault (Option (UInt32 × Block × ℕ × FS g)) := do
  if p = 0 then do
    match ← v.fs.newBlock with
    | none => .ok none
    | some (ret, s) => .ok (some (ret, Block.zero, 0, s))
  else do
    let block ← v.fs.readBlock p.toNat
    .ok (some (p, block, v.offset % 1024, v.fs))

/-- `remaining_bytes_of_block`: the bytes of the buffer that go into a block from
byte `start` on. -/
def fillCount (len start : ℕ) : ℕ := if len > 1024 - start then 1024 - start else len

/-- "fill the current block": the variables after the copy. -/
def fill (v : WriteVars g) (start : ℕ) : WriteVars g :=
  let n := fillCount v.len start
  { v with
    buf := fun x => v.buf (n + x)
    len := v.len - n
    total := v.total + n
    inode := { v.inode with size := v.inode.size + Int32.ofNat n } }

/-- "fill the current block": the block after the copy. -/
def fillBlock (v : WriteVars g) (start : ℕ) (block : Block) : Block :=
  block.memcpy start v.buf (fillCount v.len start)

/-- The loop over the direct blocks, at `i`. -/
def writeDirect (inum : ℕ) : ℕ → ℕ → WriteVars g → Except Fault (Flow g)
  | 0, _, v => .ok (.next { v with offset := 0 })
  | n + 1, i, v => do
    match ← slotBlock v (v.inode.directAt i) with
    | none => .ok (.cleanup (-ENOSPC) v.fs)
    | some (p, block, start, s) => do
      let v := { v with
        fs := s
        inode := v.inode.setDirect i p
        offset := if start = 0 then 0 else v.offset }
      let block := fillBlock v start block
      let v := fill v start
      let s := (v.fs.setInode inum v.inode).writeAllInodes
      let s ← s.writeBlock p.toNat block
      if v.len = 0 then .ok (.cleanup v.total s)
      else writeDirect inum n (i + 1) { v with fs := s }

/-- The loop over the entries of `indir_1`, at `i`, with the block of pointers in
`indirect_1`. -/
def writeLevel1 (inum : ℕ) : ℕ → ℕ → Block → WriteVars g → Except Fault (Flow g)
  | 0, _, _, v => .ok (.next { v with offset := 0 })
  | n + 1, i, indirect1, v => do
    match ← slotBlock v (indirect1.word i) with
    | none => .ok (.cleanup (-ENOSPC) v.fs)
    | some (p, block, start, s) => do
      let indirect1 := indirect1.setWord i p
      let v := { v with fs := s, offset := if start = 0 then 0 else v.offset }
      let block := fillBlock v start block
      let v := fill v start
      let s := (v.fs.setInode inum v.inode).writeAllInodes
      let s ← s.writeBlock v.inode.indir1.toNat indirect1
      let s ← s.writeBlock p.toNat block
      if v.len = 0 then .ok (.cleanup v.total s)
      else writeLevel1 inum n (i + 1) indirect1 { v with fs := s }

/-- The loop over the entries of a level-1 block of `indir_2`, at `j`, with the
block's number in `outer` and its contents in `indirect_1`. -/
def writeInner (inum : ℕ) (outer : UInt32) :
    ℕ → ℕ → Block → WriteVars g → Except Fault (Flow g)
  | 0, _, _, v => .ok (.next v)
  | n + 1, j, indirect1, v => do
    match ← slotBlock v (indirect1.word j) with
    | none => .ok (.cleanup (-ENOSPC) v.fs)
    | some (p, block, start, s) => do
      let indirect1 := indirect1.setWord j p
      let v := { v with fs := s }
      let block := fillBlock v start block
      let v := fill v start
      let s := (v.fs.setInode inum v.inode).writeAllInodes
      let s ← s.writeBlock p.toNat block
      let s ← s.writeBlock outer.toNat indirect1
      if v.len = 0 then .ok (.cleanup v.total s)
      else writeInner inum outer n (j + 1) indirect1 { v with fs := s }

/-- The head of the loop over `indir_2`: the level-1 block that entry `i` names, or
a new one if the entry is empty.  A new block is entered in `indirect_2` and its
number stored; the zeroed buffer is not. -/
def outerBlock (s : FS g) (inode : Inode) (indirect2 : Block) (i : ℕ) :
    Except Fault (Option (UInt32 × Block × FS g)) := do
  if indirect2.word i = 0 then do
    match ← s.newBlock with
    | none => .ok none
    | some (ret, s) => do
      let indirect2 := indirect2.setWord i ret
      let s ← s.writeBlock inode.indir2.toNat indirect2
      .ok (some (ret, indirect2, s))
  else .ok (some (indirect2.word i, indirect2, s))

/-- The loop over the entries of `indir_2`, at `i`, with the block of pointers in
`indirect_2`; the inner loop starts at `j` the first time. -/
def writeOuter (inum : ℕ) : ℕ → ℕ → ℕ → Block → WriteVars g → Except Fault (Flow g)
  | 0, _, _, _, v => .ok (.next v)
  | n + 1, i, j, indirect2, v => do
    match ← v.fs.outerBlock v.inode indirect2 i with
    | none => .ok (.cleanup (-ENOSPC) v.fs)
    | some (outer, indirect2, s) => do
      let indirect1 ← s.readBlock outer.toNat
      match ← writeInner inum outer (256 - j) j indirect1 { v with fs := s } with
      | .cleanup total s => .ok (.cleanup total s)
      | .next v => writeOuter inum n (i + 1) 0 indirect2 v

/-- `handle_writing_indirect_level2_blocks`. -/
def fromLevel2 (inum numberOfBlocks : ℕ) (v : WriteVars g) : Except Fault (Flow g) := do
  let start (v : WriteVars g) : Except Fault (Flow g) := do
    let indirect2 ← v.fs.readBlock v.inode.indir2.toNat
    let i := (numberOfBlocks - 262) / 256
    let j := (numberOfBlocks - 262) % 256
    writeOuter inum (256 - i) i j indirect2 v
  if v.inode.indir2 = 0 then do
    match ← v.fs.newBlock with
    | none => .ok (.cleanup (-ENOSPC) v.fs)
    | some (ret, s) => do
      let inode := { v.inode with indir2 := ret }
      let s := (s.setInode inum inode).writeAllInodes
      let s ← s.writeBlock ret.toNat Block.zero
      start { v with fs := s, inode := inode }
  else start v

/-- `handle_writing_indirect_blocks_level1`. -/
def fromLevel1 (inum numberOfBlocks : ℕ) (v : WriteVars g) : Except Fault (Flow g) := do
  let start (v : WriteVars g) : Except Fault (Flow g) := do
    let indirect1 ← v.fs.readBlock v.inode.indir1.toNat
    let i := numberOfBlocks - 6
    match ← writeLevel1 inum (256 - i) i indirect1 v with
    | .cleanup total s => .ok (.cleanup total s)
    | .next v => fromLevel2 inum 262 v
  if v.inode.indir1 = 0 then do
    match ← v.fs.newBlock with
    | none => .ok (.cleanup (-ENOSPC) v.fs)
    | some (ret, s) => do
      let inode := { v.inode with indir1 := ret }
      let s := (s.setInode inum inode).writeAllInodes
      let s ← s.writeBlock ret.toNat Block.zero
      start { v with fs := s, inode := inode }
  else start v

/-- `handle_writing_direct_blocks`. -/
def fromDirect (inum numberOfBlocks : ℕ) (v : WriteVars g) : Except Fault (Flow g) := do
  match ← writeDirect inum (6 - numberOfBlocks) numberOfBlocks v with
  | .cleanup total s => .ok (.cleanup total s)
  | .next v => fromLevel1 inum 6 v

/-- The dispatch of `fs_write`.  A block number past the double-indirect region
takes none of the three branches and falls into the first loop. -/
def writeBlocks (inum numberOfBlocks : ℕ) (v : WriteVars g) : Except Fault (Flow g) :=
  if numberOfBlocks < 6 then fromDirect inum numberOfBlocks v
  else if numberOfBlocks < 262 then fromLevel1 inum numberOfBlocks v
  else if numberOfBlocks < 65798 then fromLevel2 inum numberOfBlocks v
  else fromDirect inum numberOfBlocks v

/-- The label `cleanup`. -/
def writeCleanup (c : Context) (path : Path) (total : ℤ) (s : FS g) :
    Except Fault (ℤ × FS g) := do
  let (_, s) ← s.fsUtime path c.now
  .ok (total, s)

/-- `fs_write`. -/
def fsWrite (c : Context) (s : FS g) (path : Path) (buf : ℕ → UInt8) (len offset : ℕ) :
    Except Fault (ℤ × FS g) := do
  match ← s.fsGetattr path with
  | .inl ret => .ok (ret, s)
  | .inr sb => do
    let inode ← s.inode sb.ino
    if sIsDir inode.mode then .ok (-EISDIR, s)
    else if (offset : ℤ) > inode.size.toInt then .ok (-EINVAL, s)
    else do
      match ← writeBlocks sb.ino (offset / 1024) ⟨s, inode, buf, len, offset, 0⟩ with
      | .cleanup total s => writeCleanup c path total s
      | .next v => writeCleanup c path v.total v.fs

end FS

end Fsx600
