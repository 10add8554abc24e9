import Fsx600.Lib.Words
import Fsx600.Model.Calls
import Fsx600.Model.Format
import Fsx600.Model.Read
import Fsx600.Model.Reports
import Mathlib.Data.List.Sort

/-!
# The command line

`misc.c` with `-cmdline`: a loop that reads lines, cuts them into words, looks the first one up in
a table, and calls the operations of `fs_ops` on paths that it puts together from the current
directory and its arguments.

Strings are lists of bytes without the NUL.  The arrays that they are copied to have fixed sizes,
and nothing checks them: `cwd[128]`, `paths[16][44]`, the `path[128]` of every command, the rows of
`lsbuf[32][64]`, and `blkbuf`, which has `blksiz` bytes.  A copy that does not fit is a `ShellFault`,
and so is a read that stores behind the end of `blkbuf`, be it only the NUL that `fs_read` puts
behind the bytes it copies.

Outside the image there are files with a name and contents.  `open` for writing fails where the
`System` says so, and `read` fails for a negative `blksiz`; apart from that, reading and writing them
always succeeds, and so does `malloc` of a size that is not negative.
-/

namespace Fsx600

open Function Words

/-- The bytes of a text. -/
def ascii (text : String) : List UInt8 := text.toList.map fun c => UInt8.ofNat c.toNat

/-- The ways the command line can stop short of an answer. -/
inductive ShellFault where
  /-- An operation of `fs_ops` faults. -/
  | fs (e : Fault)
  /-- A string of `len` bytes is copied to an array of `size` bytes. -/
  | buffer (size len : ℕ)
  /-- `paths[16]`. -/
  | pathsIndex
  /-- `lsbuf[32]`. -/
  | lsbufIndex
  /-- `fs_read` stores byte `last` of `blkbuf`, which has `size` bytes. -/
  | blkbuf (size last : ℕ)
  /-- The `int offset` of a loop over reads overflows. -/
  | offset
  deriving DecidableEq

/-- An operation of `fs_ops`, called from the command line. -/
def fsOp {α : Type} : Except Fault α → Except ShellFault α
  | .ok a => .ok a
  | .error e => .error (.fs e)

/-- What the shell uses of the system it runs on: `strerror`, `ctime`, `isatty(0)`, and for which
names `open(name, O_WRONLY|O_CREAT|O_TRUNC)` succeeds. -/
structure System where
  strerror : ℤ → List UInt8
  ctime : UInt32 → List UInt8
  isatty : Bool
  creatable : Name → Bool

/-- The user and the clock, when a command makes its one call, and when `put` writes at an
offset. -/
structure Moment where
  call : Context
  write : ℕ → Context

/-! ## Sizes -/

/-- `(size_t) n`. -/
def sizeT (n : Int32) : ℕ := n.toInt64.toUInt64.toNat

/-- The bytes of `malloc(n)`.  For a negative `n` it gives NULL, where there are none. -/
def mallocSize (n : Int32) : ℕ := n.toInt.toNat

/-! ## Strings -/

/-- `sprintf` or `strcpy` to an array of `size` bytes. -/
def copyTo (size : ℕ) (s : List UInt8) : Except ShellFault (List UInt8) :=
  if s.length < size then .ok s else .error (.buffer size s.length)

/-- `split(p, args, n, delim)`: the first `n` tokens. -/
def split (n : ℕ) (delim : UInt8 → Bool) (p : List UInt8) : List Name := (words delim p).take n

/-- The delimiters of the command line, `" \t\n"`. -/
def isBlank (b : UInt8) : Bool := b == 32 || b == 9 || b == 10

/-- The delimiter of paths. -/
def isSlash (b : UInt8) : Bool := b == 47

/-- `fix_path`: what is left of a path without its `../` and without the first of two slashes. -/
def fixPath : List UInt8 → List UInt8
  | [] => []
  | 46 :: 46 :: 47 :: rest => fixPath rest
  | b :: rest => if b = 47 ∧ rest.head? = some 47 then fixPath rest else b :: fixPath rest

/-- The string that starts at the first of some bytes. -/
def cString (bytes : List UInt8) : Path where
  bytes := bytes.takeWhile fun b => b != 0
  nul_notMem := fun h => by simpa using List.all_eq_true.1 List.all_takeWhile 0 h

/-- The value of the digits that a string starts with, in a base of at most ten. -/
def digits (base : ℕ) : List UInt8 → ℕ → ℕ
  | [], n => n
  | b :: rest, n =>
    if 48 ≤ b.toNat ∧ b.toNat < 48 + base then digits base rest (n * base + (b.toNat - 48)) else n

/-- `strtol(s, NULL, base)`, for a base of at most ten. -/
def strtol (base : ℕ) (s : List UInt8) : ℤ :=
  let s := s.dropWhile fun b => b == 32 || (9 ≤ b.toNat && b.toNat ≤ 13)
  let n : ℤ := if s.head? = some 45 then -digits base s.tail 0
    else if s.head? = some 43 then digits base s.tail 0 else digits base s 0
  max (-2 ^ 63) (min (2 ^ 63 - 1) n)

/-- `%d`, `%ld` and `%lld`. -/
def decimal (n : ℤ) : List UInt8 := ascii (toString n)

/-! ## The current directory -/

/-- The globals `cwd`, `paths`, `depth`, `blksiz` and `blkbuf`. -/
structure Shell where
  cwd : List UInt8
  paths : ℕ → Name
  depth : ℕ
  blksiz : Int32
  blkbuf : ℕ → UInt8

namespace Shell

/-- The globals at the start, with `_blksiz(1000)`. -/
def start : Shell := ⟨[], fun _ => [], 0, 1000, fun _ => 0⟩

/-- `update_cwd`. -/
def updateCwd (sh : Shell) : Except ShellFault Shell := do
  let cwd ← copyTo 128 ((List.range sh.depth).flatMap fun i => 47 :: sh.paths i)
  .ok { sh with cwd }

/-- The loop of `do_cd` over the names. -/
def pushNames (sh : Shell) : List Name → Except ShellFault Shell
  | [] => .ok sh
  | name :: rest =>
    if sh.depth < 16 then do
      let name ← copyTo 44 name
      pushNames { sh with paths := update sh.paths sh.depth name, depth := sh.depth + 1 } rest
    else .error .pathsIndex

/-- `do_cd`. -/
def doCd (sh : Shell) (dir : Name) : Except ShellFault Shell :=
  if dir = ascii ".." then updateCwd { sh with depth := sh.depth - 1 }
  else do
    let sh ← pushNames (if dir.head? = some 47 then { sh with depth := 0 } else sh) (split 10 isSlash dir)
    sh.updateCwd

/-- `get_cwd`. -/
def getCwd (sh : Shell) : List UInt8 := if sh.depth = 0 then ascii "/" else sh.cwd

/-- The path of an argument below a directory: `sprintf(path, "%s/%s", dir, arg)`, `fix_path(path)`. -/
def pathBelow (dir arg : List UInt8) : Except ShellFault Path := do
  let path ← copyTo 128 (dir ++ 47 :: arg)
  .ok (cString (fixPath path))

/-- The path of an argument, as most commands make it. -/
def pathTo (sh : Shell) (arg : Name) : Except ShellFault Path := pathBelow sh.cwd arg

end Shell

/-! ## Sessions -/

/-- The file system, the globals of the shell, and the files outside. -/
structure Session (g : Layout) where
  fs : FS g
  shell : Shell
  files : Name → Option (List UInt8)

/-- What a command prints, what it returns, and what it leaves. -/
structure Answer (g : Layout) where
  out : List UInt8
  ret : ℤ
  next : Session g

/-! ## Listing -/

/-- The rows of `lsbuf`, filled one after another. -/
def fillRows (lines : List (List UInt8)) : Except ShellFault (List (List UInt8)) :=
  if lines.length ≤ 32 then lines.mapM (copyTo 64) else .error .lsbufIndex

/-- `print_ls`: `qsort` with `strcmp`, then one row after another. -/
def printLs (rows : List (List UInt8)) : List UInt8 := (rows.insertionSort (· ≤ ·)).flatten

/-- `strmode`. -/
def strmode (mode : UInt32) : List UInt8 :=
  (if sIsDir mode then 100 else 45) :: (List.range 9).map fun i =>
    if mode.toNat.testBit (8 - i) then (ascii "rwxrwxrwx").getD i 0 else 45

/-- The line of `dashl_filler`. -/
def dashlLine (sys : System) (name : List UInt8) (sb : FS.Stat) : List UInt8 :=
  name ++ 32 :: strmode sb.mode ++ 32 :: decimal sb.size ++ 32 :: decimal sb.blocks ++
    32 :: sys.ctime sb.mtime

namespace Session

variable {g : Layout} (s : Session g)

/-- A command that changes nothing. -/
def say (out : List UInt8) (ret : ℤ) : Answer g := ⟨out, ret, s⟩

/-- A command that is one call of an operation. -/
def oneCall (x : Except Fault (ℤ × FS g)) : Except ShellFault (Answer g) := do
  let (ret, fs) ← fsOp x
  .ok ⟨[], ret, { s with fs }⟩

/-- `readdir` with a filler, and `print_ls`. -/
def listDir (line : Name → FS.Stat → List UInt8) (path : Path) : Except ShellFault (Answer g) := do
  let (ret, filled) ← fsOp (s.fs.fsReaddir path)
  let rows ← fillRows (filled.map fun x => line x.1 x.2)
  .ok (s.say (printLs rows) ret)

/-- `filler`, as the line that it makes. -/
def fillerLine (name : Name) (_ : FS.Stat) : List UInt8 := name ++ [10]

/-- `_lsdashl`. -/
def lsdashl (sys : System) (path : Path) : Except ShellFault (Answer g) := do
  match ← fsOp (s.fs.fsGetattr path) with
  | .inl ret => .ok (s.say [] ret)
  | .inr sb =>
    if sIsDir sb.mode then s.listDir (dashlLine sys) path
    else do
      let rows ← fillRows [dashlLine sys path.bytes sb]
      .ok (s.say (printLs rows) 0)

/-! ## Copying -/

/-- What successive reads of `n` bytes from an open file return, up to the one that returns
nothing. -/
def reads (n : ℕ) : ℕ → List UInt8 → List (List UInt8)
  | 0, _ => []
  | k + 1, bytes =>
    if (bytes.take n).isEmpty then [] else bytes.take n :: reads n k (bytes.drop n)

/-- `blkbuf` after `read(fd, blkbuf, blksiz)`. -/
def loadBuf (buf : ℕ → UInt8) (chunk : List UInt8) : ℕ → UInt8 := fun x => (chunk[x]?).getD (buf x)

/-- The loop of `do_put`: `val`, `blkbuf` and the file system in the end. -/
def putLoop (w : ℕ → Context) (path : Path) (offset : ℕ) (val : ℤ) (buf : ℕ → UInt8) (fs : FS g) :
    List (List UInt8) → Except ShellFault (ℤ × (ℕ → UInt8) × FS g)
  | [] => .ok (val, buf, fs)
  | chunk :: rest => do
    let buf := loadBuf buf chunk
    let (val, fs) ← fsOp (fs.fsWrite (w offset) path buf chunk.length offset)
    if val ≠ chunk.length then .ok (val, buf, fs)
    else putLoop w path (offset + chunk.length) val buf fs rest

/-- `do_put`.  With a negative `blksiz`, `read` fails, and with 0 it returns nothing; then no piece is
written. -/
def doPut (m : Moment) (outside inside : Name) : Except ShellFault (Answer g) :=
  match s.files outside with
  | none => .ok (s.say [] (-1))
  | some bytes => do
    let path ← s.shell.pathTo inside
    let (val, fs) ← fsOp (s.fs.fsMknod m.call path (0x1FF ||| S_IFREG))
    if val ≠ 0 then .ok ⟨[], val, { s with fs }⟩
    else do
      let chunks := reads (mallocSize s.shell.blksiz) bytes.length bytes
      let (val, blkbuf, fs) ← putLoop m.write path 0 val s.shell.blkbuf fs chunks
      .ok ⟨[], if 0 ≤ val then 0 else val, { s with fs, shell := { s.shell with blkbuf } }⟩

/-- `fs_ops.read(path, blkbuf, blksiz, offset, NULL)`.  At the label `cleanup`, `fs_read` stores a NUL
in byte `len`; it does not come there if it returns an error, or 0 because of `offset` alone. -/
def readBlkbuf (fs : FS g) (path : Path) (blksiz : Int32) (offset : ℕ) (buf : ℕ → UInt8) :
    Except ShellFault (ℤ × (ℕ → UInt8)) := do
  let (len, buf) ← fsOp (fs.fsRead path buf (sizeT blksiz) offset)
  if 0 ≤ len ∧ (0 ≤ FS.readIndex offset ∧ FS.readIndex offset < 65798) ∧ mallocSize blksiz ≤ len.toNat then
    .error (.blkbuf (mallocSize blksiz) len.toNat)
  else .ok (len, buf)

/-- The loop of `do_get` and `do_show`: the last return value, `blkbuf`, and the bytes that were
passed on.  Every pass but the last one adds to `offset`, which is an `int`. -/
def getLoop (fs : FS g) (path : Path) (blksiz : Int32) :
    ℕ → ℕ → (ℕ → UInt8) → Except ShellFault (ℤ × (ℕ → UInt8) × List UInt8)
  | 0, _, _ => .error .offset
  | k + 1, offset, buf => do
    let (len, buf) ← readBlkbuf fs path blksiz offset buf
    if len ≤ 0 then .ok (len, buf, [])
    else do
      let (last, buf', bytes) ← getLoop fs path blksiz k (offset + len.toNat) buf
      .ok (last, buf', (List.range len.toNat).map buf ++ bytes)

/-- The loop from the start of the file. -/
def getBytes (path : Path) : Except ShellFault (ℤ × (ℕ → UInt8) × List UInt8) :=
  getLoop s.fs path s.shell.blksiz (2 ^ 31) 0 s.shell.blkbuf

/-- `do_get`. -/
def doGet (sys : System) (inside outside : Name) : Except ShellFault (Answer g) :=
  if sys.creatable outside then do
    let path ← s.shell.pathTo inside
    let (len, blkbuf, bytes) ← s.getBytes path
    .ok ⟨[], if 0 ≤ len then 0 else len,
      { s with shell := { s.shell with blkbuf }, files := update s.files outside (some bytes) }⟩
  else .ok (s.say [] (-1))

/-- `do_show`. -/
def doShow (file : Name) : Except ShellFault (Answer g) := do
  let path ← s.shell.pathTo file
  let (len, blkbuf, bytes) ← s.getBytes path
  .ok ⟨bytes, if 0 ≤ len then 0 else len, { s with shell := { s.shell with blkbuf } }⟩

/-! ## The commands -/

/-- `_blksiz`. -/
def setBlksiz (size : Int32) : Answer g :=
  ⟨ascii "read/write block size: " ++ decimal size.toInt ++ [10], 0,
    { s with shell := { s.shell with blksiz := size, blkbuf := fun _ => 0 } }⟩

/-- `do_statfs`. -/
def doStatfs : Except ShellFault (Answer g) := do
  let (ret, st) ← fsOp s.fs.fsStatfs
  .ok (s.say (if ret = 0 then ascii "max name length: " ++ decimal st.namemax.toInt64.toInt ++
    ascii "\nblock size: " ++ decimal st.bsize.toInt64.toInt ++ [10] else []) ret)

end Session

/-- The functions in the table of commands. -/
inductive Command where
  | cd
  | pwd
  | ls0
  | ls1
  | lsdashl0
  | lsdashl1
  | chmod
  | rename
  | mkdir
  | rmdir
  | rm
  | put
  | put1
  | get
  | get1
  | «show»
  | statfs
  | blksiz
  | truncate
  | utime
  deriving DecidableEq

/-- A row of the table of commands. -/
structure CommandRow where
  name : String
  nargs : ℕ
  f : Command
  help : String

/-- `cmds`. -/
def cmds : List CommandRow :=
  [⟨"cd", 1, .cd, "cd <path> - change directory"⟩,
    ⟨"pwd", 0, .pwd, "pwd - display current directory"⟩,
    ⟨"ls", 0, .ls0, "ls - list files in current directory"⟩,
    ⟨"ls", 1, .ls1, "ls <dir> - list specified directory"⟩,
    ⟨"ls-l", 0, .lsdashl0, "ls-l - display detailed file listing"⟩,
    ⟨"ls-l", 1, .lsdashl1, "ls-l <file> - display detailed file info"⟩,
    ⟨"chmod", 2, .chmod, "chmod <mode> <file> - change permissions"⟩,
    ⟨"rename", 2, .rename, "rename <oldname> <newname> - rename file"⟩,
    ⟨"mkdir", 1, .mkdir, "mkdir <dir> - create directory"⟩,
    ⟨"rmdir", 1, .rmdir, "rmdir <dir> - remove directory"⟩,
    ⟨"rm", 1, .rm, "rm <file> - remove file"⟩,
    ⟨"put", 2, .put, "put <outside> <inside> - copy a file from localdir into file system"⟩,
    ⟨"put", 1, .put1, "put <name> - ditto, but keep the same name"⟩,
    ⟨"get", 2, .get, "get <inside> <outside> - retrieve a file from file system to local directory"⟩,
    ⟨"get", 1, .get1, "get <name> - ditto, but keep the same name"⟩,
    ⟨"show", 1, .show, "show <file> - retrieve and print a file"⟩,
    ⟨"statfs", 0, .statfs, "statfs - print file system info"⟩,
    ⟨"blksiz", 1, .blksiz, "blksiz - set read/write block size"⟩,
    ⟨"truncate", 1, .truncate, "truncate <file> - truncate to zero length"⟩,
    ⟨"utime", 1, .utime, "utime <file> - set modified time to current time"⟩]

namespace Session

variable {g : Layout} (s : Session g)

/-- `cmds[i].f(argv)`. -/
def call (sys : System) (m : Moment) (f : Command) (argv : List Name) : Except ShellFault (Answer g) :=
  let arg0 := argv.getD 0 []
  let arg1 := argv.getD 1 []
  match f with
  | .cd => do
    let shell ← s.shell.doCd arg0
    .ok ⟨[], 0, { s with shell }⟩
  | .pwd => .ok (s.say (s.shell.getCwd ++ [10]) 0)
  | .ls0 => s.listDir fillerLine (cString s.shell.getCwd)
  | .ls1 => do s.listDir fillerLine (← Shell.pathBelow s.shell.getCwd arg0)
  | .lsdashl0 => s.lsdashl sys (cString s.shell.getCwd)
  | .lsdashl1 => do s.lsdashl sys (← s.shell.pathTo arg0)
  | .chmod => do
    let path ← s.shell.pathTo arg1
    s.oneCall (s.fs.fsChmod m.call path (Int32.ofInt (strtol 8 arg0)).toUInt32)
  | .rename => do
    let p1 ← s.shell.pathTo arg0
    let p2 ← s.shell.pathTo arg1
    s.oneCall (s.fs.fsRename m.call p1 p2)
  | .mkdir => do s.oneCall (s.fs.fsMkdir m.call (← s.shell.pathTo arg0) 0x1FF)
  | .rmdir => do s.oneCall (s.fs.fsRmdir (← s.shell.pathTo arg0))
  | .rm => do s.oneCall (s.fs.fsUnlink m.call (← s.shell.pathTo arg0))
  | .put => s.doPut m arg0 arg1
  | .put1 => s.doPut m arg0 arg0
  | .get => s.doGet sys arg0 arg1
  | .get1 => s.doGet sys arg0 arg0
  | .show => s.doShow arg0
  | .statfs => s.doStatfs
  | .blksiz => .ok (s.setBlksiz (Int32.ofInt (strtol 10 arg0)))
  | .truncate => do s.oneCall (s.fs.fsTruncate (← s.shell.pathTo arg0) 0)
  | .utime => do s.oneCall (s.fs.fsUtime (← s.shell.pathTo arg0) m.call.now)

/-! ## The loop -/

/-- What a line leads to: the output and the next session, or the output and the end. -/
inductive Outcome (g : Layout) where
  | next (out : List UInt8) (s : Session g)
  | quit (out : List UInt8)

/-- The words of a line, as the shell takes them. -/
def lineWords (line : List UInt8) : List Name := split 10 isBlank (cString line).bytes

/-- One pass of `cmdloop`, with the line that `fgets` has read. -/
def step (sys : System) (m : Moment) (line : List UInt8) : Except ShellFault (Outcome g) :=
  let echo := if sys.isatty then [] else (cString line).bytes
  if line.head? = some 35 then .ok (.next echo s)
  else match lineWords line with
  | [] => .ok (.next echo s)
  | name :: argv =>
    if name = ascii "quit" ∨ name = ascii "exit" then .ok (.quit echo)
    else if name = ascii "help" then
      .ok (.next (echo ++ cmds.flatMap fun row => ascii row.help ++ [10]) s)
    else match cmds.find? fun row => name == ascii row.name && argv.length == row.nargs with
    | none => .ok (.next (echo ++ ascii "bad command: " ++ name ++ [10]) s)
    | some row => do
      let a ← s.call sys m row.f argv
      .ok (.next (echo ++ a.out ++ if a.ret = 0 then [] else ascii "error: " ++ sys.strerror (-a.ret) ++ [10])
        a.next)

/-- `cmdloop` on the lines that are left: the output, and the session in the end. -/
def cmdloop (sys : System) (s : Session g) : List (Moment × List UInt8) →
    Except ShellFault (List UInt8 × Session g)
  | [] => .ok (ascii "cmd> ", s)
  | (m, line) :: rest => do
    match ← s.step sys m line with
    | .quit out => .ok (ascii "cmd> " ++ out, s)
    | .next out s => do
      let (out', t) ← cmdloop sys s rest
      .ok (ascii "cmd> " ++ out ++ out', t)

end Session

/-- What `fgets(line, 128, stdin)` gives one time after another, when `cur` is what it has read of
the next line. -/
def inputLines (cur : List UInt8) : List UInt8 → List (List UInt8)
  | [] => if cur.isEmpty then [] else [cur]
  | b :: rest =>
    if b = 10 ∨ cur.length = 126 then (cur ++ [b]) :: inputLines [] rest else inputLines (cur ++ [b]) rest

/-- The lines of the input; line `k` is read at the moment `ms k`. -/
def timedLines (ms : ℕ → Moment) (input : List UInt8) : List (Moment × List UInt8) :=
  (inputLines [] input).zipIdx.map fun x => (ms x.2, x.1)

/-- `main` with `-cmdline`, on an image that can be opened: what it prints, and the image and the
files outside that it leaves. -/
def commandLine (sys : System) (ms : ℕ → Moment) (im : Image) (files : Name → Option (List UInt8))
    (input : List UInt8) : Except ShellFault (List UInt8 × Image × (Name → Option (List UInt8))) := do
  let ⟨g, fs⟩ ← fsOp (fsInit im)
  let s : Session g := ⟨fs, .start, files⟩
  let (out, t) ← Session.cmdloop sys { s with shell := ← s.shell.updateCwd } (timedLines ms input)
  .ok (ascii "read/write block size: 1000\n" ++ out, t.fs.image, t.files)

end Fsx600
