import Fsx600.Model.State

/-!
# Path walking

`translate_path_to_inum`, `get_parent_inum` and `get_last_of_split`: the three
functions that cut a path with `strtok` and, in two of them, walk the directories
it names.  `fs_getattr` is the first on top of the first.

The walk is written twice in the source, and twice here.  The tokens go to a
`char *tokens[64]` and the loops stop at the NULL after the last one, so a path of
64 components is read past the end of the table; the index `i` of the loops is
kept to say so.
-/

namespace Fsx600

/-- A path component, or any NUL-terminated string without its NUL. -/
abbrev Name : Type := List UInt8

/-- A C string used as a path. -/
structure Path where
  bytes : List UInt8
  nul_notMem : 0 ∉ bytes

/-- The tokens `strtok(path, "/")` gives one after another. -/
def Path.tokens (p : Path) : List Name := (p.bytes.splitOn 47).filter fun t => !t.isEmpty

/-- The loop that stores the tokens in `tokens[64]`. -/
def Path.split (p : Path) : Except Fault (List Name) :=
  if p.tokens.length ≤ 64 then .ok p.tokens else .error (.tokenIndex 64)

/-- The first entry of a directory block that is valid and has the given name. -/
def findEntry (block : Block) (token : Name) : Option ℕ :=
  (List.range 32).find? fun j => (block.dirent j).named token && (block.dirent j).valid

/-- The string in a 26-byte name buffer: `strlen` runs off the end of a buffer that
holds no NUL. -/
def bufferString (str : List UInt8) : Except Fault Name :=
  if (str.takeWhile (· != 0)).length < str.length then .ok (str.takeWhile (· != 0))
  else .error (.nameBuffer str.length)

/-- `get_last_of_split`: `tokens[--i]`. -/
def getLastOfSplit (path : Path) : Except Fault Name := do
  let tokens ← path.split
  match tokens.getLast? with
  | none => .error (.tokenIndex (-1))
  | some last => .ok last

namespace FS

variable {g : Layout}

/-- The loop of `translate_path_to_inum`, at `token = tokens[i]`. -/
def translateLoop (s : FS g) : ℕ → ℕ → List Name → Except Fault ℤ
  | _, inum, [] => .ok inum
  | i, inum, token :: rest => do
    let temp ← s.inode inum
    let block ← s.readBlock (temp.directAt 0).toNat
    match findEntry block token with
    | none => .ok (-ENOENT)
    | some j =>
      if i + 1 < 64 then
        if !rest.isEmpty && !(block.dirent j).isDir then .ok (-ENOTDIR)
        else s.translateLoop (i + 1) (block.dirent j).inode.toNat rest
      else .error (.tokenIndex (i + 1))

/-- `translate_path_to_inum`. -/
def translatePathToInum (s : FS g) (path : Path) : Except Fault ℤ := do
  let tokens ← path.split
  s.translateLoop 0 1 tokens

/-- The loop of `get_parent_inum`, at `token = tokens[i]`: it stops at the last
component. -/
def parentLoop (s : FS g) : ℕ → ℕ → List Name → Except Fault ℤ
  | _, inum, [] => .ok inum
  | i, inum, [_] => if i + 1 < 64 then .ok inum else .error (.tokenIndex (i + 1))
  | i, inum, token :: next :: rest => do
    let temp ← s.inode inum
    let block ← s.readBlock (temp.directAt 0).toNat
    match findEntry block token with
    | none => .ok (-ENOENT)
    | some j =>
      if !(block.dirent j).isDir then .ok (-ENOTDIR)
      else s.parentLoop (i + 1) (block.dirent j).inode.toNat (next :: rest)

/-- `get_parent_inum`: the inode of the parent or an error, and the 26-byte buffer
`str` with the last component. -/
def getParentInum (s : FS g) (path : Path) : Except Fault (ℤ × List UInt8) := do
  let tokens ← path.split
  match tokens.getLast? with
  | none => .ok (-EINVAL, List.replicate 26 0)
  | some last =>
    if last.length ≤ 26 then do
      let inum ← s.parentLoop 0 1 tokens
      .ok (inum, last ++ List.replicate (26 - last.length) 0)
    else .error (.nameBuffer last.length)

/-! ## Attributes -/

/-- The fields of `struct stat` that are filled in. -/
structure Stat where
  ino : ℕ
  blocks : ℤ
  mode : UInt32
  size : ℤ
  uid : UInt16
  gid : UInt16
  ctime : UInt32
  mtime : UInt32
  atime : UInt32
  nlink : ℕ

/-- `fs_set_superbock_attrs`. -/
def fsSetSuperbockAttrs (inode : Inode) (inum : ℕ) : Stat where
  ino := inum
  blocks := ((inode.size - 1) / 1024 + 1).toInt
  mode := inode.mode
  size := inode.size.toInt
  uid := inode.uid
  gid := inode.gid
  ctime := inode.ctime
  mtime := inode.mtime
  atime := inode.mtime
  nlink := 1

/-- `fs_getattr`: an error code or the attributes. -/
def fsGetattr (s : FS g) (path : Path) : Except Fault (ℤ ⊕ Stat) := do
  let inum ← s.translatePathToInum path
  if inum = -ENOENT ∨ inum = -ENOTDIR then .ok (.inl inum)
  else do
    let inode ← s.inode inum
    .ok (.inr (fsSetSuperbockAttrs inode inum.toNat))

end FS

end Fsx600
