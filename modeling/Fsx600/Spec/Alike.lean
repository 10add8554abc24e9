import Fsx600.Lib.SideBySide
import Fsx600.Spec.Primitives
import Fsx600.Model.Calls
import Fsx600.Model.Read
import Fsx600.Model.Reports

/-!
# States that no call can tell apart

Two states are alike when they have the same disk, the same bits within the two bitmaps and the
same inodes within the table.  What lies past the end of an array is no state of the program,
and the ghost `trace` is not either, so no operation can tell such states apart: each of them
returns the same, or faults in the same way, and leaves states that are alike.

The lemmas follow the source function by function.  An operation that changes nothing reads the
same (`Alike.fsGetattr`, `Alike.fsRead`); one that changes the state is followed through its
binds, with the state as the only thing that differs (`Alike.exec`).
-/

namespace Fsx600

open Checked Function

namespace FS

variable {g : Layout} {s t : FS g} {α : Type}

/-- The same disk, the same bitmaps and the same inode table. -/
structure Alike (s t : FS g) : Prop where
  disk : t.disk = s.disk
  inodeMap : ∀ i < g.inodeBits, t.inodeMap i = s.inodeMap i
  blockMap : ∀ i < g.blockBits, t.blockMap i = s.blockMap i
  inodes : ∀ i < g.numInodes, t.inodes i = s.inodes i

namespace Alike

theorem refl (s : FS g) : Alike s s := ⟨rfl, fun _ _ => rfl, fun _ _ => rfl, fun _ _ => rfl⟩

theorem symm (h : Alike s t) : Alike t s :=
  ⟨h.disk.symm, fun i hi => (h.inodeMap i hi).symm, fun i hi => (h.blockMap i hi).symm,
    fun i hi => (h.inodes i hi).symm⟩

theorem trans {u : FS g} (h : Alike s t) (h' : Alike t u) : Alike s u :=
  ⟨h'.disk.trans h.disk, fun i hi => (h'.inodeMap i hi).trans (h.inodeMap i hi),
    fun i hi => (h'.blockMap i hi).trans (h.blockMap i hi),
    fun i hi => (h'.inodes i hi).trans (h.inodes i hi)⟩

/-! ## Reading -/

section Reading

variable (h : Alike s t)
include h

theorem readBlock (b : ℕ) : t.readBlock b = s.readBlock b := by
  rw [FS.readBlock, FS.readBlock, h.disk]

theorem inode (i : ℤ) : t.inode i = s.inode i := by
  rw [FS.inode, FS.inode]
  by_cases hi : 0 ≤ i ∧ i.toNat < g.numInodes
  · rw [if_pos hi, if_pos hi, h.inodes _ hi.2]
  · rw [if_neg hi, if_neg hi]

theorem inodeBit (i : ℕ) : t.inodeBit i = s.inodeBit i := by
  rw [FS.inodeBit, FS.inodeBit]
  by_cases hi : i < g.inodeBits
  · rw [if_pos hi, if_pos hi, h.inodeMap _ hi]
  · rw [if_neg hi, if_neg hi]

theorem translateLoop (i inum : ℕ) (q : List Name) : t.translateLoop i inum q = s.translateLoop i inum q := by
  induction q generalizing i inum with
  | nil => rfl
  | cons n q ih => simp only [FS.translateLoop, h.inode, h.readBlock, ih]

theorem translatePathToInum (path : Path) : t.translatePathToInum path = s.translatePathToInum path := by
  simp only [FS.translatePathToInum, h.translateLoop]

theorem parentLoop (i inum : ℕ) (q : List Name) : t.parentLoop i inum q = s.parentLoop i inum q := by
  induction q generalizing i inum with
  | nil => rfl
  | cons n q ih =>
    cases q with
    | nil => rfl
    | cons m q => simp only [FS.parentLoop, h.inode, h.readBlock, ih]

theorem getParentInum (path : Path) : t.getParentInum path = s.getParentInum path := by
  simp only [FS.getParentInum, h.parentLoop]

theorem fsGetattr (path : Path) : t.fsGetattr path = s.fsGetattr path := by
  simp only [FS.fsGetattr, h.translatePathToInum, h.inode]

theorem readdirLoop (block : Block) (l : List ℕ) : t.readdirLoop block l = s.readdirLoop block l := by
  induction l with
  | nil => rfl
  | cons i l ih => simp only [FS.readdirLoop, h.inode, ih]

theorem fsReaddir (path : Path) : t.fsReaddir path = s.fsReaddir path := by
  simp only [FS.fsReaddir, h.fsGetattr, h.inode, h.readBlock, h.readdirLoop]

theorem fsStatfs : t.fsStatfs = s.fsStatfs := by
  simp only [FS.fsStatfs, FirstFit.count_congr h.blockMap]

theorem readSlot (inode : Inode) (offset : ℕ) (p : UInt32) (v : ReadVars) :
    t.readSlot inode offset p v = s.readSlot inode offset p v := by
  simp only [FS.readSlot, h.readBlock]

theorem readDirect (inode : Inode) (offset n i : ℕ) (v : ReadVars) :
    t.readDirect inode offset n i v = s.readDirect inode offset n i v := by
  induction n generalizing i v with
  | zero => rfl
  | succ n ih => simp only [FS.readDirect, h.readSlot, ih]

theorem readEntries (inode : Inode) (offset : ℕ) (blocks : Block) (n i : ℕ) (v : ReadVars) :
    t.readEntries inode offset blocks n i v = s.readEntries inode offset blocks n i v := by
  induction n generalizing i v with
  | zero => rfl
  | succ n ih => simp only [FS.readEntries, h.readSlot, ih]

theorem readOuter (inode : Inode) (offset : ℕ) (indirect2 : Block) (n i j : ℕ) (v : ReadVars) :
    t.readOuter inode offset indirect2 n i j v = s.readOuter inode offset indirect2 n i j v := by
  induction n generalizing i j v with
  | zero => rfl
  | succ n ih => simp only [FS.readOuter, h.readBlock, h.readEntries, ih]

theorem readBlocks (inode : Inode) (offset nBlocks : ℕ) (v : ReadVars) :
    t.readBlocks inode offset nBlocks v = s.readBlocks inode offset nBlocks v := by
  simp only [FS.readBlocks, FS.readFromDirect, FS.readFromLevel1, FS.readFromLevel2, h.readBlock,
    h.readDirect, h.readEntries, h.readOuter]

theorem fsRead (path : Path) (buf : ℕ → UInt8) (len offset : ℕ) :
    t.fsRead path buf len offset = s.fsRead path buf len offset := by
  simp only [FS.fsRead, h.fsGetattr, h.inode, h.readBlocks]

theorem unlinkLoop (block : Block) (last : Name) (n i : ℕ) :
    t.unlinkLoop block last n i = s.unlinkLoop block last n i := by
  induction n generalizing i with
  | zero => rfl
  | succ n ih => simp only [FS.unlinkLoop, h.inode, h.inodeBit, ih]

end Reading

/-! ## The helpers -/

section Helpers

variable (h : Alike s t)
include h

theorem setInodeBit (k : ℕ) (v : Bool) : Alike (s.setInodeBit k v) (t.setInodeBit k v) where
  disk := h.disk
  inodeMap i hi := by
    simp only [inodeMap_setInodeBit, update_apply, h.inodeMap i hi]
  blockMap := h.blockMap
  inodes := h.inodes

theorem setBlockBit (k : ℕ) (v : Bool) : Alike (s.setBlockBit k v) (t.setBlockBit k v) where
  disk := h.disk
  inodeMap := h.inodeMap
  blockMap i hi := by
    simp only [blockMap_setBlockBit, update_apply, h.blockMap i hi]
  inodes := h.inodes

theorem setInode (k : ℕ) (ino : Inode) : Alike (s.setInode k ino) (t.setInode k ino) where
  disk := h.disk
  inodeMap := h.inodeMap
  blockMap := h.blockMap
  inodes i hi := by
    simp only [inodes_setInode, update_apply, h.inodes i hi]

theorem writeRegion {first len : ℕ} {f f' : ℕ → Block} (hf : ∀ k < len, f' k = f k) :
    Alike (s.writeRegion first len f) (t.writeRegion first len f') where
  disk := by
    funext b
    refine ite_congr rfl (fun hb => hf _ (by omega)) fun _ => ?_
    rw [h.disk]
  inodeMap := h.inodeMap
  blockMap := h.blockMap
  inodes := h.inodes

theorem writeInodeMap : Alike s.writeInodeMap t.writeInodeMap :=
  h.writeRegion fun k hk => mapBlock_congr fun i hi => h.inodeMap i (by rw [Layout.inodeBits]; omega)

theorem writeBlockMap : Alike s.writeBlockMap t.writeBlockMap :=
  h.writeRegion fun k hk => mapBlock_congr fun i hi => h.blockMap i (by rw [Layout.blockBits]; omega)

theorem writeAllInodes : Alike s.writeAllInodes t.writeAllInodes :=
  h.writeRegion fun k hk => inodeBlock_congr fun i hi => h.inodes i (by rw [Layout.numInodes]; omega)

theorem releaseInode (k : ℕ) : Alike (s.releaseInode k) (t.releaseInode k) :=
  (h.setInodeBit k false).writeInodeMap

theorem writeBlock (b : ℕ) (blk : Block) : Matches Alike (s.writeBlock b blk) (t.writeBlock b blk) := by
  rw [FS.writeBlock, FS.writeBlock]
  by_cases hb : b < g.nblks
  · rw [if_pos hb, if_pos hb, h.disk]
    exact .ok ⟨rfl, h.inodeMap, h.blockMap, h.inodes⟩
  · rw [if_neg hb, if_neg hb]
    exact .error _

theorem freeABlock (bit : ℤ) : Matches Alike (s.freeABlock bit) (t.freeABlock bit) := by
  rw [FS.freeABlock, FS.freeABlock]
  split
  · split
    · exact .ok (h.setBlockBit _ false)
    · exact .error _
  · exact .ok h

theorem clearInodeBit (k : ℕ) : Matches Alike (s.clearInodeBit k) (t.clearInodeBit k) := by
  rw [FS.clearInodeBit, FS.clearInodeBit]
  split
  · exact .ok (h.setInodeBit k false)
  · exact .error _

end Helpers

/-- Nothing on either side, or the same index with its bit taken. -/
inductive Taken : Option (ℕ × FS g) → Option (ℕ × FS g) → Prop
  | none : Taken none none
  | some {s t : FS g} (i : ℕ) (h : Alike s t) (hbit : t.inodeMap i = s.inodeMap i) :
      Taken (some (i, s)) (some (i, t))

/-- The same value, and states that are alike. -/
inductive Pair : α × FS g → α × FS g → Prop
  | mk {s t : FS g} (a : α) (h : Alike s t) : Pair (a, s) (a, t)

theorem getFreeInode (h : Alike s t) : Matches Taken s.getFreeInode t.getFreeInode := by
  refine .bind_eq (FirstFit.scan_congr h.inodeMap 64 0) fun o => ?_
  cases o with
  | none => exact .ok .none
  | some i =>
    refine .ok (.some i (h.setInodeBit i true) ?_)
    simp only [inodeMap_setInodeBit, update_self]

/-- Nothing on either side, or the same block. -/
inductive Given : Option (α × FS g) → Option (α × FS g) → Prop
  | none : Given none none
  | some {s t : FS g} (a : α) (h : Alike s t) : Given (some (a, s)) (some (a, t))

theorem getFreeBlock (h : Alike s t) : Matches Given s.getFreeBlock t.getFreeBlock := by
  refine .bind_eq (FirstFit.scan_congr h.blockMap _ _) fun o => ?_
  cases o with
  | none => exact .ok .none
  | some i => exact .ok (.some i (h.setBlockBit i true))

/-! ## The operations on names -/

/-- An exit that returns the state it has. -/
theorem exit (h : Alike s t) (a : α) :
    Matches Pair (.ok (a, s) : Except Fault (α × FS g)) (.ok (a, t)) :=
  .ok (.mk a h)

theorem mknodFinish (h : Alike s t) (inum : ℕ) (ino : Inode) (d : ℕ) (block : Block) :
    Matches Pair (s.mknodFinish inum ino d block) (t.mknodFinish inum ino d block) :=
  ((h.writeInodeMap.setInode inum ino).writeAllInodes.writeBlock d block).bind fun _ _ h => h.exit 0

theorem fsMknod (h : Alike s t) (c : Context) (path : Path) (mode : UInt32) :
    Matches Pair (s.fsMknod c path mode) (t.fsMknod c path mode) := by
  refine .bind_eq (h.translatePathToInum path) fun childInum => ?_
  refine .bind_eq (h.getParentInum path) fun ⟨parentInum, dirName⟩ => ?_
  dsimp only
  split
  · exact h.exit _
  refine .bind_eq (h.inode _) fun pInode => ?_
  split
  · exact h.exit _
  split
  · exact h.exit _
  refine h.getFreeInode.bind fun x y hxy => ?_
  cases hxy with
  | none => exact h.exit _
  | some n h hbit =>
    refine .bind_eq (h.readBlock _) fun block => .bind_eq (h.inode _) fun old => ?_
    cases freeSlot block with
    | none =>
      dsimp only
      rw [hbit]
      split
      · exact (h.releaseInode n).exit _
      · exact h.exit _
    | some i =>
      refine .bind_eq rfl fun name => ?_
      split
      · refine h.getFreeBlock.bind fun x y hxy => ?_
        cases hxy with
        | none => exact (h.releaseInode n).exit _
        | some b h =>
          exact (h.writeBlockMap.writeBlock b _).bind fun _ _ h => h.mknodFinish n _ _ _
      · exact h.mknodFinish n _ _ _

theorem rmdirEntry (h : Alike s t) (block : Block) (childInum : ℤ) :
    Matches (fun x y => y.2 = x.2 ∧ Alike x.1 y.1) (s.rmdirEntry block childInum)
      (t.rmdirEntry block childInum) := by
  rw [FS.rmdirEntry, FS.rmdirEntry]
  cases slotOfInode block childInum with
  | none => exact .ok ⟨rfl, h⟩
  | some j => exact (h.clearInodeBit _).bind fun _ _ h => .ok ⟨rfl, h.writeInodeMap⟩

theorem fsRmdir (h : Alike s t) (path : Path) : Matches Pair (s.fsRmdir path) (t.fsRmdir path) := by
  refine .bind_eq (h.translatePathToInum path) fun childInum => ?_
  refine .bind_eq (h.getParentInum path) fun ⟨parentInum, _⟩ => ?_
  dsimp only
  split
  · exact h.exit _
  refine .bind_eq (h.inode _) fun cInode => ?_
  split
  · exact h.exit _
  refine .bind_eq (h.readBlock _) fun block => ?_
  split
  · exact h.exit _
  refine (h.freeABlock _).bind fun s t h => ?_
  have h := h.writeBlockMap.setInode childInum.toNat Inode.zero
  refine .bind_eq (h.inode _) fun pInode => .bind_eq (h.readBlock _) fun block => ?_
  refine (h.rmdirEntry block childInum).bind fun ⟨s, block⟩ ⟨t, _⟩ ⟨hb, h⟩ => ?_
  obtain rfl := hb
  exact (h.writeBlock _ _).bind fun _ _ h => (h.setInode _ pInode).writeAllInodes.exit 0

theorem renameEntry (h : Alike s t) (c : Context) (block : Block) (currInum : ℤ) (newName : Name) :
    Matches (fun x y => y.2 = x.2 ∧ Alike x.1 y.1) (s.renameEntry c block currInum newName)
      (t.renameEntry c block currInum newName) := by
  rw [FS.renameEntry, FS.renameEntry]
  cases slotOfInode block currInum with
  | none => exact .ok ⟨rfl, h⟩
  | some j => exact .bind_eq (h.inode _) fun ino => .ok ⟨rfl, (h.setInode _ _).writeAllInodes⟩

theorem fsRename (h : Alike s t) (c : Context) (srcPath dstPath : Path) :
    Matches Pair (s.fsRename c srcPath dstPath) (t.fsRename c srcPath dstPath) := by
  refine .bind_eq (h.getParentInum srcPath) fun ⟨prevPinum, _⟩ => ?_
  refine .bind_eq (h.translatePathToInum srcPath) fun currInum => ?_
  refine .bind_eq (h.getParentInum dstPath) fun ⟨newPinum, newBuffer⟩ => ?_
  dsimp only
  split
  · exact h.exit _
  split
  · exact h.exit _
  refine .bind_eq (h.inode _) fun parentInode => .bind_eq (h.readBlock _) fun block => ?_
  refine .bind_eq rfl fun theNewName => ?_
  split
  · exact h.exit _
  refine (h.renameEntry c block currInum theNewName).bind fun ⟨s, block⟩ ⟨t, _⟩ ⟨hb, h⟩ => ?_
  obtain rfl := hb
  exact (h.writeBlock _ _).bind fun _ _ h => h.exit 0

theorem fsChmod (h : Alike s t) (c : Context) (path : Path) (mode : UInt32) :
    Matches Pair (s.fsChmod c path mode) (t.fsChmod c path mode) := by
  refine .bind_eq (h.fsGetattr path) fun o => ?_
  cases o with
  | inl ret => exact h.exit _
  | inr sb => exact .bind_eq (h.inode _) fun ino => (h.setInode _ _).writeAllInodes.exit 0

theorem fsUtime (h : Alike s t) (path : Path) (modtime : UInt32) :
    Matches Pair (s.fsUtime path modtime) (t.fsUtime path modtime) := by
  refine .bind_eq (h.fsGetattr path) fun o => ?_
  cases o with
  | inl ret => exact h.exit _
  | inr sb => exact .bind_eq (h.inode _) fun ino => (h.setInode _ _).writeAllInodes.exit 0

/-! ## Truncation and unlinking -/

theorem truncDirect (h : Alike s t) (n i : ℕ) (ino : Inode) :
    Matches (fun x y => y.2 = x.2 ∧ Alike x.1 y.1) (FS.truncDirect n i s ino) (FS.truncDirect n i t ino) := by
  induction n generalizing i s t ino with
  | zero => exact .ok ⟨rfl, h⟩
  | succ n ih =>
    rw [FS.truncDirect, FS.truncDirect]
    split
    · exact .ok ⟨rfl, h⟩
    · exact (h.freeABlock _).bind fun _ _ h => ih h _ _

theorem freeWords (h : Alike s t) (blocks : Block) (n i : ℕ) :
    Matches Alike (FS.freeWords blocks n i s) (FS.freeWords blocks n i t) := by
  induction n generalizing i s t with
  | zero => exact .ok h
  | succ n ih =>
    rw [FS.freeWords, FS.freeWords]
    split
    · exact .ok h
    · exact (h.freeABlock _).bind fun _ _ h => ih h _

theorem freeTables (h : Alike s t) (blocks : Block) (n k : ℕ) :
    Matches Alike (FS.freeTables blocks n k s) (FS.freeTables blocks n k t) := by
  induction n generalizing k s t with
  | zero => exact .ok h
  | succ n ih =>
    rw [FS.freeTables, FS.freeTables]
    split
    · exact .ok h
    split
    · refine .bind_eq (h.readBlock _) fun innerloop => ?_
      refine (h.freeWords innerloop 256 0).bind fun _ _ h => ?_
      exact (h.freeABlock _).bind fun _ _ h => ih h _
    · exact ih h _

theorem truncIndir1 (h : Alike s t) (ino : Inode) : Matches Alike (s.truncIndir1 ino) (t.truncIndir1 ino) := by
  rw [FS.truncIndir1, FS.truncIndir1]
  split
  · exact .bind_eq (h.readBlock _) fun blocks => h.freeWords blocks 256 0
  · exact .ok h

theorem truncIndir2 (h : Alike s t) (ino : Inode) : Matches Alike (s.truncIndir2 ino) (t.truncIndir2 ino) := by
  rw [FS.truncIndir2, FS.truncIndir2]
  split
  · exact .bind_eq (h.readBlock _) fun blocks => h.freeTables blocks 256 0
  · exact .ok h

theorem fsTruncate (h : Alike s t) (path : Path) (len : ℤ) :
    Matches Pair (s.fsTruncate path len) (t.fsTruncate path len) := by
  rw [FS.fsTruncate, FS.fsTruncate]
  split
  · exact h.exit _
  refine .bind_eq (h.fsGetattr path) fun o => ?_
  cases o with
  | inl ret => exact h.exit _
  | inr sb =>
    refine .bind_eq (h.inode _) fun ino => ?_
    split
    · exact h.exit _
    refine (h.truncDirect 6 0 ino).bind fun ⟨s, ino⟩ ⟨t, _⟩ ⟨hino, h⟩ => ?_
    obtain rfl := hino
    dsimp only
    refine (h.truncIndir1 _).bind fun _ _ h => (h.truncIndir2 _).bind fun _ _ h => ?_
    exact (h.writeBlockMap.setInode _ _).writeAllInodes.exit 0

theorem fsUnlink (h : Alike s t) (c : Context) (path : Path) :
    Matches Pair (s.fsUnlink c path) (t.fsUnlink c path) := by
  refine (h.fsTruncate path 0).bind fun x y hxy => ?_
  cases hxy with
  | mk inum h =>
    dsimp only
    split
    · exact h.exit _
    refine .bind_eq (h.getParentInum path) fun ⟨parentInum, _⟩ => .bind_eq rfl fun last => ?_
    refine .bind_eq (h.inode _) fun parentDir => .bind_eq (h.readBlock _) fun block => ?_
    refine .bind_eq (h.unlinkLoop block last 32 0) fun o => ?_
    cases o with
    | isDir => exact h.exit _
    | missing => exact h.exit _
    | found i n ino =>
      have h := (h.setInodeBit n false).setInode n { ino with size := 0, mtime := c.now }
      exact (h.writeBlock _ _).bind fun _ _ h => h.writeAllInodes.writeInodeMap.exit 0

/-! ## Writing -/

/-- The same way out of a loop of `fs_write`. -/
inductive Out : Flow g → Flow g → Prop
  | cleanup {s t : FS g} (total : ℤ) (h : Alike s t) : Out (.cleanup total s) (.cleanup total t)
  | next {s t : FS g} (ino : Inode) (buf : ℕ → UInt8) (len offset total : ℕ) (h : Alike s t) :
      Out (.next ⟨s, ino, buf, len, offset, total⟩) (.next ⟨t, ino, buf, len, offset, total⟩)

/-- Nothing on either side, or the same slot, block and start. -/
inductive Slotted : Option (UInt32 × Block × ℕ × FS g) → Option (UInt32 × Block × ℕ × FS g) → Prop
  | none : Slotted none none
  | some {s t : FS g} (p : UInt32) (block : Block) (start : ℕ) (h : Alike s t) :
      Slotted (some (p, block, start, s)) (some (p, block, start, t))

/-- Nothing on either side, or the same level-1 block and table. -/
inductive Outer : Option (UInt32 × Block × FS g) → Option (UInt32 × Block × FS g) → Prop
  | none : Outer none none
  | some {s t : FS g} (p : UInt32) (block : Block) (h : Alike s t) :
      Outer (some (p, block, s)) (some (p, block, t))

theorem newBlock (h : Alike s t) : Matches Given s.newBlock t.newBlock := by
  refine h.getFreeBlock.bind fun x y hxy => ?_
  cases hxy with
  | none => exact .ok .none
  | some b h =>
    exact .bind_eq (h.writeBlockMap.readBlock b) fun _ => .ok (.some _ h.writeBlockMap)

section Writing

variable (inum : ℕ) (ino : Inode) (buf : ℕ → UInt8) (len offset total : ℕ)

theorem slotBlock (h : Alike s t) (p : UInt32) : Matches Slotted
    (FS.slotBlock ⟨s, ino, buf, len, offset, total⟩ p) (FS.slotBlock ⟨t, ino, buf, len, offset, total⟩ p) := by
  rw [FS.slotBlock, FS.slotBlock]
  split
  · refine h.newBlock.bind fun x y hxy => ?_
    cases hxy with
    | none => exact .ok .none
    | some b h => exact .ok (.some _ _ _ h)
  · exact .bind_eq (h.readBlock _) fun block => .ok (.some _ _ _ h)

theorem writeDirect (h : Alike s t) (n i : ℕ) : Matches Out
    (FS.writeDirect inum n i ⟨s, ino, buf, len, offset, total⟩)
    (FS.writeDirect inum n i ⟨t, ino, buf, len, offset, total⟩) := by
  induction n generalizing i s t ino buf len offset total with
  | zero => exact .ok (.next _ _ _ _ _ h)
  | succ n ih =>
    refine (h.slotBlock ino buf len offset total _).bind fun x y hxy => ?_
    cases hxy with
    | none => exact .ok (.cleanup _ h)
    | some p block start h =>
      refine ((h.setInode _ _).writeAllInodes.writeBlock _ _).bind fun s t h => ?_
      exact .ite (.ok (.cleanup _ h)) (ih _ _ _ _ _ h _)

theorem writeLevel1 (h : Alike s t) (n i : ℕ) (indirect1 : Block) : Matches Out
    (FS.writeLevel1 inum n i indirect1 ⟨s, ino, buf, len, offset, total⟩)
    (FS.writeLevel1 inum n i indirect1 ⟨t, ino, buf, len, offset, total⟩) := by
  induction n generalizing i s t indirect1 ino buf len offset total with
  | zero => exact .ok (.next _ _ _ _ _ h)
  | succ n ih =>
    refine (h.slotBlock ino buf len offset total _).bind fun x y hxy => ?_
    cases hxy with
    | none => exact .ok (.cleanup _ h)
    | some p block start h =>
      refine ((h.setInode _ _).writeAllInodes.writeBlock _ _).bind fun s t h => ?_
      refine (h.writeBlock _ _).bind fun s t h => ?_
      exact .ite (.ok (.cleanup _ h)) (ih _ _ _ _ _ h _ _)

theorem writeInner (h : Alike s t) (outer : UInt32) (n j : ℕ) (indirect1 : Block) : Matches Out
    (FS.writeInner inum outer n j indirect1 ⟨s, ino, buf, len, offset, total⟩)
    (FS.writeInner inum outer n j indirect1 ⟨t, ino, buf, len, offset, total⟩) := by
  induction n generalizing j s t indirect1 ino buf len offset total with
  | zero => exact .ok (.next _ _ _ _ _ h)
  | succ n ih =>
    refine (h.slotBlock ino buf len offset total _).bind fun x y hxy => ?_
    cases hxy with
    | none => exact .ok (.cleanup _ h)
    | some p block start h =>
      refine ((h.setInode _ _).writeAllInodes.writeBlock _ _).bind fun s t h => ?_
      refine (h.writeBlock _ _).bind fun s t h => ?_
      exact .ite (.ok (.cleanup _ h)) (ih _ _ _ _ _ h _ _)

theorem outerBlock (h : Alike s t) (indirect2 : Block) (i : ℕ) :
    Matches Outer (s.outerBlock ino indirect2 i) (t.outerBlock ino indirect2 i) := by
  rw [FS.outerBlock, FS.outerBlock]
  split
  · refine h.newBlock.bind fun x y hxy => ?_
    cases hxy with
    | none => exact .ok .none
    | some b h => exact (h.writeBlock _ _).bind fun _ _ h => .ok (.some _ _ h)
  · exact .ok (.some _ _ h)

theorem writeOuter (h : Alike s t) (n i j : ℕ) (indirect2 : Block) : Matches Out
    (FS.writeOuter inum n i j indirect2 ⟨s, ino, buf, len, offset, total⟩)
    (FS.writeOuter inum n i j indirect2 ⟨t, ino, buf, len, offset, total⟩) := by
  induction n generalizing i j s t indirect2 ino buf len offset total with
  | zero => exact .ok (.next _ _ _ _ _ h)
  | succ n ih =>
    refine (h.outerBlock ino indirect2 i).bind fun x y hxy => ?_
    cases hxy with
    | none => exact .ok (.cleanup _ h)
    | some outer indirect2 h =>
      refine .bind_eq (h.readBlock _) fun indirect1 => ?_
      refine (h.writeInner inum ino buf len offset total outer _ j indirect1).bind fun x y hxy => ?_
      cases hxy with
      | cleanup total h => exact .ok (.cleanup _ h)
      | next ino buf len offset total h => exact ih _ _ _ _ _ h _ _ _

theorem fromLevel2 (h : Alike s t) (nb : ℕ) : Matches Out
    (FS.fromLevel2 inum nb ⟨s, ino, buf, len, offset, total⟩)
    (FS.fromLevel2 inum nb ⟨t, ino, buf, len, offset, total⟩) := by
  have hstart : ∀ {s t : FS g} (ino : Inode), Alike s t → Matches Out
      (s.readBlock ino.indir2.toNat >>= fun indirect2 => FS.writeOuter inum (256 - (nb - 262) / 256)
        ((nb - 262) / 256) ((nb - 262) % 256) indirect2 ⟨s, ino, buf, len, offset, total⟩)
      (t.readBlock ino.indir2.toNat >>= fun indirect2 => FS.writeOuter inum (256 - (nb - 262) / 256)
        ((nb - 262) / 256) ((nb - 262) % 256) indirect2 ⟨t, ino, buf, len, offset, total⟩) :=
    fun ino h => .bind_eq (h.readBlock _) fun indirect2 => h.writeOuter inum ino buf len offset total ..
  rw [FS.fromLevel2, FS.fromLevel2]
  dsimp only
  split
  · refine h.newBlock.bind fun x y hxy => ?_
    cases hxy with
    | none => exact .ok (.cleanup _ h)
    | some ret h =>
      refine ((h.setInode _ _).writeAllInodes.writeBlock _ _).bind fun s t h => ?_
      exact hstart { ino with indir2 := ret } h
  · exact hstart _ h

theorem fromLevel1 (h : Alike s t) (nb : ℕ) : Matches Out
    (FS.fromLevel1 inum nb ⟨s, ino, buf, len, offset, total⟩)
    (FS.fromLevel1 inum nb ⟨t, ino, buf, len, offset, total⟩) := by
  have hbelow : ∀ {k : Flow g → Except Fault (Flow g)},
      (∀ total s, k (.cleanup total s) = .ok (.cleanup total s)) →
      (∀ v, k (.next v) = FS.fromLevel2 inum 262 v) → ∀ x y, Out x y → Matches Out (k x) (k y) := by
    intro k hcleanup hnext x y hxy
    cases hxy with
    | cleanup total h =>
      rw [hcleanup, hcleanup]
      exact .ok (.cleanup _ h)
    | next ino buf len offset total h =>
      rw [hnext, hnext]
      exact h.fromLevel2 inum ino buf len offset total 262
  rw [FS.fromLevel1, FS.fromLevel1]
  dsimp only
  split
  · refine h.newBlock.bind fun x y hxy => ?_
    cases hxy with
    | none => exact .ok (.cleanup _ h)
    | some ret h =>
      refine ((h.setInode _ _).writeAllInodes.writeBlock _ _).bind fun s t h => ?_
      refine .bind_eq (h.readBlock _) fun indirect1 => ?_
      exact (h.writeLevel1 inum _ buf len offset total _ _ indirect1).bind
        (hbelow (fun _ _ => rfl) fun _ => rfl)
  · refine .bind_eq (h.readBlock _) fun indirect1 => ?_
    exact (h.writeLevel1 inum _ buf len offset total _ _ indirect1).bind
      (hbelow (fun _ _ => rfl) fun _ => rfl)

theorem fromDirect (h : Alike s t) (nb : ℕ) : Matches Out
    (FS.fromDirect inum nb ⟨s, ino, buf, len, offset, total⟩)
    (FS.fromDirect inum nb ⟨t, ino, buf, len, offset, total⟩) := by
  refine (h.writeDirect inum ino buf len offset total _ _).bind fun x y hxy => ?_
  cases hxy with
  | cleanup total h => exact .ok (.cleanup _ h)
  | next ino buf len offset total h => exact h.fromLevel1 inum ino buf len offset total 6

theorem writeBlocks (h : Alike s t) (nb : ℕ) : Matches Out
    (FS.writeBlocks inum nb ⟨s, ino, buf, len, offset, total⟩)
    (FS.writeBlocks inum nb ⟨t, ino, buf, len, offset, total⟩) := by
  rw [FS.writeBlocks, FS.writeBlocks]
  split
  · exact h.fromDirect inum ino buf len offset total nb
  split
  · exact h.fromLevel1 inum ino buf len offset total nb
  split
  · exact h.fromLevel2 inum ino buf len offset total nb
  · exact h.fromDirect inum ino buf len offset total nb

end Writing

theorem writeCleanup (h : Alike s t) (c : Context) (path : Path) (total : ℤ) :
    Matches Pair (FS.writeCleanup c path total s) (FS.writeCleanup c path total t) := by
  refine (h.fsUtime path c.now).bind fun x y hxy => ?_
  cases hxy with
  | mk _ h => exact h.exit total

theorem fsWrite (h : Alike s t) (c : Context) (path : Path) (buf : ℕ → UInt8) (len offset : ℕ) :
    Matches Pair (s.fsWrite c path buf len offset) (t.fsWrite c path buf len offset) := by
  refine .bind_eq (h.fsGetattr path) fun o => ?_
  cases o with
  | inl ret => exact h.exit _
  | inr sb =>
    refine .bind_eq (h.inode _) fun ino => ?_
    split
    · exact h.exit _
    split
    · exact h.exit _
    refine (h.writeBlocks sb.ino ino buf len offset 0 (offset / 1024)).bind fun x y hxy => ?_
    cases hxy with
    | cleanup total h => exact h.writeCleanup c path total
    | next ino buf len offset total h => exact h.writeCleanup c path total

/-! ## Calls -/

/-- **No call can tell.**  What it returns is the same, and the states that it leaves are alike. -/
theorem exec (h : Alike s t) (c : Context) (a : Call) : Matches Pair (s.exec c a) (t.exec c a) := by
  cases a with
  | mknod path mode => exact h.fsMknod c path mode
  | mkdir path mode => exact h.fsMknod c path (mode ||| S_IFDIR)
  | unlink path => exact h.fsUnlink c path
  | rmdir path => exact h.fsRmdir path
  | rename srcPath dstPath => exact h.fsRename c srcPath dstPath
  | chmod path mode => exact h.fsChmod c path mode
  | utime path modtime => exact h.fsUtime path modtime
  | truncate path len => exact h.fsTruncate path len
  | write path buf len offset => exact h.fsWrite c path buf len offset

end Alike

end FS

end Fsx600
