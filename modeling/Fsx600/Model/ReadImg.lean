import Fsx600.Lib.Checked
import Fsx600.Model.Format

/-!
# The image checker

`main` of `read-img.c`, a program of its own.  It reads a whole image into one buffer,
prints the superblock and the two maps, walks the directories from inode 1 with a work
list, and prints the inodes and blocks that the walk did not get to.

## What can stop the program

Reading the image can fail, and then it exits; `read` itself is taken to give all the bytes
that it is asked for.  Past that it checks no bounds.  A read outside the buffer is a `Stop`,
and so is an index outside the two bitmaps that it allocates or outside `inode_list`.  A
table that is read past its end, but inside the buffer, reads whatever the image holds
there, as in the source.

What the walk prints is kept in a log, one `Line` for each `printf` that says something
about an inode, a block or an entry.
-/

namespace Fsx600

namespace ReadImg

open Function

/-- The ways a run can stop short of a return. -/
inductive Stop where
  /-- `perror("read"), exit(1)`. -/
  | exit
  /-- Block `b` is outside the buffer. -/
  | badBlock (b : ℕ)
  /-- A bit outside a bitmap. -/
  | mapIndex (i : ℕ)
  /-- `inode_list[i]` outside the array. -/
  | listIndex (i : ℕ)
  /-- The work list is not empty yet. -/
  | running
  deriving DecidableEq

/-- `struct entry`. -/
structure Entry where
  dir : Bool
  inum : ℕ
  deriving DecidableEq

/-- What the walk prints. -/
inductive Line where
  /-- `file: inode %d`, `uid/gid %d/%d`, `mode %08o`, `size  %d`. -/
  | file (inum : ℕ) (uid gid : UInt16) (mode : UInt32) (size : Int32)
  /-- `%d `, under `blocks: `. -/
  | block (b : UInt32)
  /-- `***ERROR*** block %d marked free`. -/
  | blockFree (b : UInt32)
  /-- `***ERROR*** inode %d not a directory`. -/
  | notDirectory (inum : ℕ)
  /-- `directory: inode %d (block %d)`. -/
  | directory (inum : ℕ) (b : UInt32)
  /-- `  %s %d %s`: `D` or `F`, the inode and the name of a directory entry.  The log has the
  whole entry; what `%s` makes of a name without a NUL is left out. -/
  | entry (d : Dirent)
  /-- `***ERROR*** invalid inode %d`. -/
  | invalidInode (j : ℕ)
  /-- `***ERROR*** loop found (inode %d)`. -/
  | loopFound (inum : ℕ)
  /-- `***ERROR*** inode %d is marked free`. -/
  | inodeFree (j : ℕ)

variable (im : Image)

/-! ## The buffer -/

/-- `int size = _sb.st_size`. -/
def size : ℤ := cInt (UInt32.ofNat (1024 * im.nblks))

/-- The blocks of `disk`, a buffer of `size` bytes. -/
def diskBlocks : ℕ := (size im).toNat / 1024

/-- Block `b` of `disk`. -/
def diskBlock (b : ℕ) : Except Stop Block :=
  if b < diskBlocks im then .ok (im.block b) else .error (.badBlock b)

/-- `read(fd, disk, size) != size`: no buffer has a negative size.  Then the superblock, the
first block of the buffer. -/
def load : Except Stop Block :=
  if size im < 0 then .error .exit else diskBlock im 0

/-- `*sb`. -/
def sb : Super := Super.ofBlock (im.block 0)

/-- `disk + p * FS_BLOCK_SIZE` for a `uint32_t`. -/
def diskAt (p : UInt32) : Except Stop Block := diskBlock im ((p * 1024).toNat / 1024)

/-- `disk + p * FS_BLOCK_SIZE` for an `int`, whose product must not overflow. -/
def diskAtInt (p : UInt32) : Except Stop Block :=
  if p.toNat < 2 ^ 21 then diskBlock im p.toNat else .error (.badBlock p.toNat)

/-- Where `inode_map` starts. -/
def inodeMapBase : ℕ := 1

/-- Where `block_map` starts; the size in bytes is a `uint32_t`. -/
def blockMapBase : ℕ := inodeMapBase + ((sb im).inodeMapSz * 1024).toNat / 1024

/-- Where `inodes` starts. -/
def inodeBase : ℕ := blockMapBase im + ((sb im).blockMapSz * 1024).toNat / 1024

/-- `FD_ISSET(i, map)` for a map that starts at block `base` of the buffer. -/
def diskBit (base i : ℕ) : Except Stop Bool :=
  if base + i / 8192 < diskBlocks im then .ok (mapBit (fun k => im.block (base + k)) i)
  else .error (.badBlock (base + i / 8192))

/-- `inodes[i]`. -/
def inode (i : ℕ) : Except Stop Inode :=
  if inodeBase im + i / 16 < diskBlocks im then
    .ok (inodeAt (fun k => im.block (inodeBase im + k)) i)
  else .error (.badBlock (inodeBase im + i / 16))

/-- `buf[0]` to `buf[255]`. -/
def words (b : Block) : List UInt32 := (List.range 256).map b.word

/-- `de[0]` to `de[31]`. -/
def dirents (b : Block) : List Dirent := (List.range 32).map b.dirent

/-! ## The maps in the image -/

/-- `allocated inodes: `. -/
def allocatedInodes : Except Stop (List ℕ) :=
  Checked.filter (diskBit im inodeMapBase) (List.range ((sb im).inodeMapSz * 8192).toNat)

/-- `allocated blocks: `. -/
def allocatedBlocks : Except Stop (List ℕ) :=
  Checked.filter (diskBit im (blockMapBase im)) (List.range ((sb im).blockMapSz * 8192).toNat)

/-! ## The state of the walk -/

/-- The bitmaps `imap` and `blkmap`, and `inode_list` with `tail`; `head` is the length of the
list.  The log has the last line first. -/
structure Search where
  imap : ℕ → Bool
  blkmap : ℕ → Bool
  list : List Entry
  tail : ℕ
  log : List Line

/-- `sb->inode_region_sz * 16`. -/
def numInodes : ℕ := ((sb im).inodeRegionSz * 16).toNat

/-- The size of `inode_list`, `max_inodes + 100`. -/
def listSize : ℕ := (cInt ((sb im).inodeRegionSz * 16) + 100).toNat

/-- A bit inside the maps of `calloc(size/8192, 1)`, which are accessed by words of 64 bits. -/
def InMap (i : ℕ) : Prop := 8 * (i / 64) + 8 ≤ (size im).toNat / 8192

instance (i : ℕ) : Decidable (InMap im i) := inferInstanceAs (Decidable (_ ≤ _))

namespace Search

/-- `printf`. -/
def print (s : Search) (l : Line) : Search := { s with log := l :: s.log }

/-- `inode_list[head++] = e`. -/
def append (s : Search) (e : Entry) : Except Stop Search :=
  if s.list.length < listSize im then .ok { s with list := s.list ++ [e] }
  else .error (.listIndex s.list.length)

/-- `FD_ISSET(i, imap)`. -/
def met (s : Search) (i : ℕ) : Except Stop Bool :=
  if InMap im i then .ok (s.imap i) else .error (.mapIndex i)

/-- `FD_SET(i, imap)`. -/
def setMet (s : Search) (i : ℕ) : Except Stop Search :=
  if InMap im i then .ok { s with imap := update s.imap i true } else .error (.mapIndex i)

/-- `FD_ISSET(i, blkmap)`. -/
def seen (s : Search) (i : ℕ) : Except Stop Bool :=
  if InMap im i then .ok (s.blkmap i) else .error (.mapIndex i)

/-- `FD_SET(i, blkmap)`. -/
def setSeen (s : Search) (i : ℕ) : Except Stop Search :=
  if InMap im i then .ok { s with blkmap := update s.blkmap i true } else .error (.mapIndex i)

/-! ## Files -/

/-- One pointer to a block of a file. -/
def seeBlock (s : Search) (p : UInt32) : Except Stop Search :=
  if p = 0 then .ok s
  else do
    let s ← (s.print (.block p)).setSeen im p.toNat
    let used ← diskBit im (blockMapBase im) p.toNat
    return if used then s else s.print (.blockFree p)

/-- The pointers of `direct` or of a pointer block. -/
def seeBlocks (s : Search) : List UInt32 → Except Stop Search
  | [] => .ok s
  | p :: ps => do
    let s ← s.seeBlock im p
    s.seeBlocks ps

/-- The pointers of an `indir_2` block. -/
def seeLevel1 (s : Search) : List UInt32 → Except Stop Search
  | [] => .ok s
  | p :: ps =>
    if p = 0 then s.seeLevel1 ps
    else do
      let buf ← diskAtInt im p
      let s ← s.seeBlocks im (words buf)
      s.seeLevel1 ps

/-- `if (in->indir_1)`. -/
def seeIndir1 (s : Search) (p : UInt32) : Except Stop Search :=
  if p = 0 then .ok s
  else do
    let buf ← diskAt im p
    s.seeBlocks im (words buf)

/-- `if (in->indir_2)`. -/
def seeIndir2 (s : Search) (p : UInt32) : Except Stop Search :=
  if p = 0 then .ok s
  else do
    let buf2 ← diskAt im p
    s.seeLevel1 im (words buf2)

/-- The branch of an entry that is not a directory. -/
def visitFile (s : Search) (inum : ℕ) (ino : Inode) : Except Stop Search := do
  let s := s.print (.file inum ino.uid ino.gid ino.mode ino.size)
  let s ← s.seeBlocks im (List.ofFn ino.direct)
  let s ← s.seeIndir1 im ino.indir1
  s.seeIndir2 im ino.indir2

/-! ## Directories

The flag beside the state says whether the code went to `fail`. -/

/-- One entry of directory `inum`. -/
def visitEntry (s : Search) (inum : ℕ) (d : Dirent) : Except Stop (Bool × Search) :=
  if d.valid then
    let s := s.print (.entry d)
    let j := d.inode.toNat
    if j ≥ numInodes im then .ok (false, s.print (.invalidInode j))
    else do
      let met ← s.met im j
      if met then return (true, s.print (.loopFound inum))
      else
        let s ← s.setMet im j
        let used ← diskBit im inodeMapBase j
        let s := if used then s else s.print (.inodeFree j)
        let s ← s.append im ⟨d.isDir, j⟩
        return (false, s)
  else .ok (false, s)

/-- The entries of directory `inum`. -/
def visitEntries (s : Search) (inum : ℕ) : List Dirent → Except Stop (Bool × Search)
  | [] => .ok (false, s)
  | d :: ds => do
    let (failed, s) ← s.visitEntry im inum d
    if failed then return (true, s) else s.visitEntries inum ds

/-- The branch of a directory. -/
def visitDir (s : Search) (inum : ℕ) (ino : Inode) : Except Stop (Bool × Search) := do
  let p := ino.directAt 0
  let s := s.print (.directory inum p)
  let de ← diskAt im p
  let used ← diskBit im (blockMapBase im) p.toNat
  let s := if used then s else s.print (.blockFree p)
  let s ← s.setSeen im p.toNat
  s.visitEntries im inum (dirents de)

/-! ## The loop -/

/-- One iteration, on the entry `e` that it takes off the list. -/
def visit (s : Search) (e : Entry) : Except Stop (Bool × Search) := do
  let ino ← inode im e.inum
  if !e.dir then
    let s ← s.visitFile im e.inum ino
    return (false, s)
  else if !sIsDir ino.mode then return (false, s.print (.notDirectory e.inum))
  else s.visitDir im e.inum ino

/-- `while (head != tail)`. -/
def loop : ℕ → Search → Except Stop (Bool × Search)
  | 0, _ => .error .running
  | fuel + 1, s =>
    if s.list.length = s.tail then .ok (false, s)
    else match s.list[s.tail]? with
      | none => .error (.listIndex s.tail)
      | some e => do
        let (failed, s) ← visit im { s with tail := s.tail + 1 } e
        if failed then return (true, s) else loop fuel s

/-- The work list with inode 1 in it. -/
def start : Except Stop Search := do
  let s ← append im ⟨fun _ => false, fun _ => false, [], 0, []⟩ ⟨true, 1⟩
  s.setMet im 1

/-! ## What the walk did not get to -/

/-- `unreachable inodes: `. -/
def unreachableInodes (s : Search) : Except Stop (List ℕ) :=
  Checked.filter (fun i => do
    let met ← s.met im i
    if met then return false else diskBit im inodeMapBase i) (List.range' 1 (numInodes im - 1))

/-- `unreachable blocks: `. -/
def unreachableBlocks (s : Search) : Except Stop (List ℕ) :=
  let first := (1 + (sb im).inodeMapSz + (sb im).blockMapSz + (sb im).inodeRegionSz).toNat
  Checked.filter (fun i => do
    let seen ← s.seen im i
    if seen then
      let used ← diskBit im (blockMapBase im) i
      return !used
    else return false) (List.range' first ((sb im).numBlocks.toNat - first))

end Search

/-! ## `main` -/

/-- What is printed up to the unreachable inodes; these are missing after `goto fail`. -/
structure Survey where
  allocatedInodes : List ℕ
  allocatedBlocks : List ℕ
  search : Search
  unreachable : Option (List ℕ)

/-- The body of `main` up to the unreachable inodes, when the loop makes fewer than `fuel`
iterations. -/
def survey (fuel : ℕ) : Except Stop Survey := do
  let _ ← load im
  let inodes ← allocatedInodes im
  let blocks ← allocatedBlocks im
  let s ← Search.start im
  let (failed, s) ← Search.loop im fuel s
  if failed then return ⟨inodes, blocks, s, none⟩
  else
    let lost ← s.unreachableInodes im
    return ⟨inodes, blocks, s, some lost⟩

/-- `main`: what is printed, and the unreachable blocks. -/
def main (fuel : ℕ) : Except Stop (Survey × Option (List ℕ)) := do
  let r ← survey im fuel
  match r.unreachable with
  | none => return (r, none)
  | some _ =>
    let lost ← r.search.unreachableBlocks im
    return (r, some lost)

end ReadImg

end Fsx600
