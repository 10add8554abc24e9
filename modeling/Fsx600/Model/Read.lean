import Fsx600.Model.Path

/-!
# Reading

`fs_read`.  Like `fs_write` it is one function with a loop for each kind of pointer, entered
by `goto`, and each loop is a function here.  A loop runs until the request or the file is
at its end, which it sees when it comes to the next byte; that is after the block of that
byte has been read.

The caller's memory is a function: `buf x` is byte `x` from the address that `fs_read` was
given.
-/

namespace Fsx600

open Function

/-- The local variables of `fs_read` that its loops share: the memory, what is left of `len`,
`num_copied` and `cnt_offset`.  The pointer `buf` is always `num_copied` bytes past its
start. -/
structure ReadVars where
  buf : ℕ → UInt8
  len : ℕ
  numCopied : ℕ
  cntOffset : ℕ

/-- Where control goes after a loop of `fs_read`. -/
inductive ReadFlow where
  /-- `goto cleanup`. -/
  | cleanup (v : ReadVars)
  /-- On to the code below the loop. -/
  | next (v : ReadVars)

/-- The variables a flow carries. -/
def ReadFlow.vars : ReadFlow → ReadVars
  | .cleanup v | .next v => v

/-- The loop over the bytes of a block, at `j`. -/
def readBytes (size : Int32) (offset : ℕ) (string : Block) : ℕ → ℕ → ReadVars → ReadFlow
  | 0, _, v => .next v
  | n + 1, j, v =>
    if v.cntOffset < offset then
      readBytes size offset string n (j + 1) { v with cntOffset := v.cntOffset + 1 }
    else if 0 < v.len ∧ ((offset + v.numCopied : ℕ) : ℤ) < size.toInt then
      readBytes size offset string n (j + 1)
        { v with
          buf := update v.buf v.numCopied (string.byte j)
          numCopied := v.numCopied + 1
          len := v.len - 1 }
    else .cleanup v

namespace FS

variable {g : Layout} (s : FS g) (inode : Inode) (offset : ℕ)

/-- The body of each loop: a block is read and copied from. -/
def readSlot (p : UInt32) (v : ReadVars) : Except Fault ReadFlow := do
  let block ← s.readBlock p.toNat
  .ok (readBytes inode.size offset block 1024 0 v)

/-- The loop over the direct blocks, at `i`. -/
def readDirect : ℕ → ℕ → ReadVars → Except Fault ReadFlow
  | 0, _, v => .ok (.next v)
  | n + 1, i, v => do
    match ← s.readSlot inode offset (inode.directAt i) v with
    | .cleanup v => .ok (.cleanup v)
    | .next v => readDirect n (i + 1) v

/-- The loop over the entries of a block of pointers, at `i`: `indir_1` or a level-1 block
of `indir_2`. -/
def readEntries (blocks : Block) : ℕ → ℕ → ReadVars → Except Fault ReadFlow
  | 0, _, v => .ok (.next v)
  | n + 1, i, v => do
    match ← s.readSlot inode offset (blocks.word i) v with
    | .cleanup v => .ok (.cleanup v)
    | .next v => readEntries blocks n (i + 1) v

/-- The loop over the entries of `indir_2`, at `i`; the inner loop starts at `j` the first
time. -/
def readOuter (indirect2 : Block) : ℕ → ℕ → ℕ → ReadVars → Except Fault ReadFlow
  | 0, _, _, v => .ok (.next v)
  | n + 1, i, j, v => do
    let indirect1 ← s.readBlock (indirect2.word i).toNat
    let v := { v with cntOffset := v.cntOffset + j * 1024 }
    match ← s.readEntries inode offset indirect1 (256 - j) j v with
    | .cleanup v => .ok (.cleanup v)
    | .next v => readOuter indirect2 n (i + 1) 0 v

/-- `handle_double_indirect_blocks`.  From a loop above, `nBlocks` is less than 262, and `i`
and `j` are 0. -/
def readFromLevel2 (nBlocks : ℕ) (v : ReadVars) : Except Fault ReadFlow := do
  let indirect2 ← s.readBlock inode.indir2.toNat
  let i := (nBlocks - 262) / 256
  let j := (nBlocks - 262) % 256
  s.readOuter inode offset indirect2 (256 - i) i j
    { v with cntOffset := (262 + i * 256) * 1024 }

/-- `handle_indirect_blocks`.  From the loop above, `nBlocks` is less than 6, and `i` is 0. -/
def readFromLevel1 (nBlocks : ℕ) (v : ReadVars) : Except Fault ReadFlow := do
  let indirect1 ← s.readBlock inode.indir1.toNat
  let i := nBlocks - 6
  match ← s.readEntries inode offset indirect1 (256 - i) i { v with cntOffset := (i + 6) * 1024 } with
  | .cleanup v => .ok (.cleanup v)
  | .next v => s.readFromLevel2 inode offset nBlocks v

/-- `handle_direct_blocks`. -/
def readFromDirect (nBlocks : ℕ) (v : ReadVars) : Except Fault ReadFlow := do
  match ← s.readDirect inode offset (6 - nBlocks) nBlocks { v with cntOffset := nBlocks * 1024 } with
  | .cleanup v => .ok (.cleanup v)
  | .next v => s.readFromLevel1 inode offset nBlocks v

/-- The dispatch of `fs_read`. -/
def readBlocks (nBlocks : ℕ) (v : ReadVars) : Except Fault ReadFlow :=
  if nBlocks < 6 then s.readFromDirect inode offset nBlocks v
  else if nBlocks < 262 then s.readFromLevel1 inode offset nBlocks v
  else s.readFromLevel2 inode offset nBlocks v

/-- `n_blocks`, an `int`. -/
def readIndex (offset : ℕ) : ℤ := (Int32.ofNat (offset / 1024)).toInt

/-- `fs_read`: the return value and the memory.  The comparison with
`SIZE_DOUBLE_INDIRECT` is one of `unsigned long`s. -/
def fsRead (path : Path) (buf : ℕ → UInt8) (len offset : ℕ) : Except Fault (ℤ × (ℕ → UInt8)) := do
  match ← s.fsGetattr path with
  | .inl ret => .ok (ret, buf)
  | .inr sb =>
    if readIndex offset < 0 ∨ 65798 ≤ readIndex offset then .ok (0, buf)
    else do
      let inode ← s.inode sb.ino
      if sIsDir inode.mode then .ok (-EISDIR, buf)
      else do
        let f ← s.readBlocks inode offset (readIndex offset).toNat ⟨buf, len, 0, 0⟩
        -- the label `cleanup`
        .ok (f.vars.numCopied, update f.vars.buf f.vars.numCopied 0)

end FS

end Fsx600
