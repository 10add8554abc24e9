import Fsx600.Model.Path

/-!
# The operations on names

`fs_mknod`, `fs_mkdir`, `fs_rmdir`, `fs_rename`, `fs_chmod` and `fs_utime`, as the
source has them.  Every function returns its return code and the next state.

The scans of a directory block are `List.find?` on the slots `0, …, 31`: each C loop
breaks, or returns, at the first slot that passes its test.
-/

namespace Fsx600

namespace FS

variable {g : Layout}

/-- The first slot of a directory block whose valid bit is clear. -/
def freeSlot (block : Block) : Option ℕ :=
  (List.range 32).find? fun j => !(block.dirent j).valid

/-- The first slot, valid or stale, that carries an inode number. -/
def slotOfInode (block : Block) (inum : ℤ) : Option ℕ :=
  (List.range 32).find? fun j => ((block.dirent j).inode.toNat : ℤ) == inum

/-- The entry `fs_mknod` writes. -/
def newDirent (name : Name) (mode : UInt32) (inum : ℕ) : Dirent :=
  { Dirent.zero.copyName name with
    valid := true, isDir := sIsDir mode, inode := BitVec.ofNat 30 inum }

/-- The inode `fs_mknod` fills in over the old one. -/
def newInode (c : Context) (mode : UInt32) (old : Inode) : Inode :=
  { old with
    mode := mode
    uid := UInt16.ofNat c.uid.toNat
    gid := UInt16.ofNat c.gid.toNat
    ctime := c.now
    mtime := c.now
    size := 0
    direct := fun _ => 0
    indir1 := 0
    indir2 := 0 }

/-- The exits of `fs_mknod` that give the inode bit back. -/
def releaseInode (s : FS g) (inum : ℕ) : FS g :=
  (s.setInodeBit inum false).writeInodeMap

/-- The end of `fs_mknod`: flush the inode map, store the inode, write the parent. -/
def mknodFinish (s : FS g) (inum : ℕ) (inode : Inode) (dirBlock : ℕ) (block : Block) :
    Except Fault (ℤ × FS g) := do
  let s := s.writeInodeMap
  let s := (s.setInode inum inode).writeAllInodes
  let s ← s.writeBlock dirBlock block
  .ok (0, s)

/-- `fs_mknod`. -/
def fsMknod (c : Context) (s : FS g) (path : Path) (mode : UInt32) :
    Except Fault (ℤ × FS g) := do
  let childInum ← s.translatePathToInum path
  let (parentInum, dirName) ← s.getParentInum path
  if parentInum = -ENOTDIR ∨ parentInum = -ENOENT then .ok (parentInum, s)
  else do
    let pInode ← s.inode parentInum
    if !sIsDir pInode.mode then .ok (-ENOTDIR, s)
    else if childInum > 0 then .ok (-EEXIST, s)
    else do
      match ← s.getFreeInode with
      | none => .ok (-ENOSPC, s)
      | some (newInum, s) => do
        let block ← s.readBlock (pInode.directAt 0).toNat
        let old ← s.inode newInum
        match freeSlot block with
        | none => .ok (-ENOSPC, if s.inodeMap newInum then s.releaseInode newInum else s)
        | some i => do
          let name ← bufferString dirName
          let block := block.setDirent i (newDirent name mode newInum)
          let inode := newInode c mode old
          if sIsDir mode then do
            match ← s.getFreeBlock with
            | none => .ok (-ENOSPC, s.releaseInode newInum)
            | some (blockNum, s) => do
              let s ← s.writeBlockMap.writeBlock blockNum Block.zero
              s.mknodFinish newInum (inode.setDirect 0 (UInt32.ofNat blockNum))
                (pInode.directAt 0).toNat block
          else s.mknodFinish newInum inode (pInode.directAt 0).toNat block

/-- `fs_mkdir`. -/
def fsMkdir (c : Context) (s : FS g) (path : Path) (mode : UInt32) :
    Except Fault (ℤ × FS g) :=
  s.fsMknod c path (mode ||| S_IFDIR)

/-- `FD_CLR(i, inode_map)` at an index nothing has checked. -/
def clearInodeBit (s : FS g) (i : ℕ) : Except Fault (FS g) :=
  if i < g.inodeBits then .ok (s.setInodeBit i false) else .error (.mapIndex i)

/-- The loop of `fs_rmdir` that looks for the entry of the child and clears it. -/
def rmdirEntry (s : FS g) (block : Block) (childInum : ℤ) : Except Fault (FS g × Block) :=
  match slotOfInode block childInum with
  | none => .ok (s, block)
  | some j => do
    let s ← s.clearInodeBit childInum.toNat
    .ok (s.writeInodeMap, block.setDirent j Dirent.zero)

/-- `fs_rmdir`. -/
def fsRmdir (s : FS g) (path : Path) : Except Fault (ℤ × FS g) := do
  let childInum ← s.translatePathToInum path
  let (parentInum, _) ← s.getParentInum path
  if childInum = -ENOTDIR ∨ childInum = -ENOENT then .ok (childInum, s)
  else do
    let cInode ← s.inode childInum
    if !sIsDir cInode.mode then .ok (-ENOTDIR, s)
    else do
      let block ← s.readBlock (cInode.directAt 0).toNat
      if (List.range 32).any fun j => (block.dirent j).valid then .ok (-ENOTEMPTY, s)
      else do
        let s ← s.freeABlock (cInt (cInode.directAt 0))
        let s := s.writeBlockMap.setInode childInum.toNat Inode.zero
        let pInode ← s.inode parentInum
        let block ← s.readBlock (pInode.directAt 0).toNat
        let (s, block) ← s.rmdirEntry block childInum
        let s ← s.writeBlock (pInode.directAt 0).toNat block
        .ok (0, (s.setInode parentInum.toNat pInode).writeAllInodes)

/-- The loop of `fs_rename` that looks for the entry of the file and renames it. -/
def renameEntry (c : Context) (s : FS g) (block : Block) (currInum : ℤ) (newName : Name) :
    Except Fault (FS g × Block) :=
  match slotOfInode block currInum with
  | none => .ok (s, block)
  | some j => do
    let inode ← s.inode currInum
    .ok ((s.setInode currInum.toNat { inode with ctime := c.now }).writeAllInodes,
      block.setDirent j ((block.dirent j).copyName newName))

/-- `fs_rename`. -/
def fsRename (c : Context) (s : FS g) (srcPath dstPath : Path) : Except Fault (ℤ × FS g) := do
  let (prevPinum, _) ← s.getParentInum srcPath
  let currInum ← s.translatePathToInum srcPath
  let (newPinum, newBuffer) ← s.getParentInum dstPath
  if currInum = -ENOTDIR ∨ currInum = -ENOENT then .ok (currInum, s)
  else if prevPinum ≠ newPinum then .ok (-EINVAL, s)
  else do
    let parentInode ← s.inode prevPinum
    let block ← s.readBlock (parentInode.directAt 0).toNat
    let theNewName ← bufferString newBuffer
    if (List.range 32).any fun j => (block.dirent j).named theNewName then .ok (-EEXIST, s)
    else do
      let (s, block) ← s.renameEntry c block currInum theNewName
      let s ← s.writeBlock (parentInode.directAt 0).toNat block
      .ok (0, s)

/-- The mode `fs_chmod` stores. -/
def chmodMode (old mode : UInt32) : UInt32 :=
  if sIsDir old then S_IFDIR ||| mode else if sIsReg old then S_IFREG ||| mode else old

/-- `fs_chmod`. -/
def fsChmod (c : Context) (s : FS g) (path : Path) (mode : UInt32) :
    Except Fault (ℤ × FS g) := do
  match ← s.fsGetattr path with
  | .inl ret => .ok (ret, s)
  | .inr sb => do
    let inode ← s.inode sb.ino
    let inode := { inode with mode := chmodMode inode.mode mode, ctime := c.now }
    .ok (0, (s.setInode sb.ino inode).writeAllInodes)

/-- `fs_utime`. -/
def fsUtime (s : FS g) (path : Path) (modtime : UInt32) : Except Fault (ℤ × FS g) := do
  match ← s.fsGetattr path with
  | .inl ret => .ok (ret, s)
  | .inr sb => do
    let inode ← s.inode sb.ino
    .ok (0, (s.setInode sb.ino { inode with mtime := modtime }).writeAllInodes)

end FS

end Fsx600
