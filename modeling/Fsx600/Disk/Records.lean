import Fsx600.Disk.Block
import Mathlib.Data.Fintype.Basic
import Mathlib.Tactic.FinCases

/-!
# The on-disk records of `fsx600.h`

`struct fs_dirent`, `struct fs_super` and `struct fs_inode`, as records with the
widths of the header, and their layout in a block.  Each layout comes with the
laws that let later modules forget it: a record stored is the record read back,
and storing one leaves the others alone.

The bit fields of `fs_dirent` are packed from the least significant bit, which is
what the compilers of the target (little-endian, System V ABI) do.
-/

namespace Fsx600

open LittleEndian

/-! ## Directory entries -/

/-- `struct fs_dirent`: 32 bytes, a word of bit fields and the name. -/
structure Dirent where
  valid : Bool
  isDir : Bool
  inode : BitVec 30
  name : Fin 28 → UInt8

namespace Dirent

@[ext] theorem ext {d e : Dirent} (hv : d.valid = e.valid) (hd : d.isDir = e.isDir)
    (hi : d.inode = e.inode) (hn : d.name = e.name) : d = e := by
  cases d; cases e
  simp_all

/-- `memset(d, 0, sizeof(struct fs_dirent))`. -/
def zero : Dirent := ⟨false, false, 0, fun _ => 0⟩

/-- Byte `i` of the name field; zero past its end. -/
def nameByte (d : Dirent) (i : ℕ) : UInt8 := if h : i < 28 then d.name ⟨i, h⟩ else 0

/-- The word of bit fields. -/
def word (d : Dirent) : UInt32 :=
  UInt32.ofNat (d.valid.toNat + 2 * d.isDir.toNat + 4 * d.inode.toNat)

/-- Compare the name from byte `i` on with the rest of a token.  `strcmp` stays in the field
unless the token begins with all its 28 bytes and none of them is NUL; such a token matches
nothing here. -/
def cmpFrom (d : Dirent) : ℕ → List UInt8 → Bool
  | i, [] => i < 28 && d.nameByte i == 0
  | i, c :: cs => d.nameByte i == c && d.cmpFrom (i + 1) cs

/-- `!strcmp(d->name, token)`. -/
def named (d : Dirent) (token : List UInt8) : Bool := d.cmpFrom 0 token

/-- `strncpy(d->name, s, strlen(s))`: the bytes of `s` and no NUL after them, so
that what the field held past them stays. -/
def copyName (d : Dirent) (s : List UInt8) : Dirent :=
  { d with name := fun i => if h : i < s.length then s[i] else d.name i }

end Dirent

namespace Block

/-- Entry `j` of the block read as an array of 32 directory entries. -/
def dirent (b : Block) (j : ℕ) : Dirent where
  valid := (b.word (8 * j)).toNat % 2 == 1
  isDir := (b.word (8 * j)).toNat / 2 % 2 == 1
  inode := BitVec.ofNat 30 ((b.word (8 * j)).toNat / 4)
  name := fun i => b.byte (32 * j + 4 + i)

/-- Store a directory entry at index `j`. -/
def setDirent (b : Block) (j : ℕ) (d : Dirent) : Block :=
  ofFn fun x =>
    if x / 32 = j then
      if x % 32 < 4 then wordByte d.word (x % 32) else d.nameByte (x % 32 - 4)
    else b.byte x

theorem word_setDirent_self (b : Block) {j : ℕ} (d : Dirent) (hj : j < 32) :
    (b.setDirent j d).word (8 * j) = d.word := by
  refine Eq.trans (wordOf_congr fun k hk => ?_) (wordOf_wordByte d.word)
  have hdiv : (4 * (8 * j) + k) / 32 = j := by omega
  have hmod : (4 * (8 * j) + k) % 32 = k := by omega
  rw [setDirent, byte_ofFn _ (by omega), if_pos hdiv, hmod, if_pos hk]

theorem byte_setDirent_of_ne (b : Block) {j x : ℕ} (d : Dirent) (hx : x / 32 ≠ j) :
    (b.setDirent j d).byte x = b.byte x := by
  by_cases h : x < 1024
  · rw [setDirent, byte_ofFn _ h, if_neg hx]
  · rw [byte_of_le _ (Nat.le_of_not_lt h), byte_of_le _ (Nat.le_of_not_lt h)]

theorem toNat_word (d : Dirent) :
    d.word.toNat = d.valid.toNat + 2 * d.isDir.toNat + 4 * d.inode.toNat := by
  have hv := d.valid.toNat_le
  have hd := d.isDir.toNat_le
  have hi := d.inode.isLt
  rw [Dirent.word, UInt32.toNat_ofNat']
  omega

/-- A directory entry stored is the entry read back. -/
@[simp] theorem dirent_setDirent_self (b : Block) {j : ℕ} (d : Dirent) (hj : j < 32) :
    (b.setDirent j d).dirent j = d := by
  have hi := d.inode.isLt
  apply Dirent.ext
  · rw [dirent, word_setDirent_self b d hj, toNat_word]
    cases d.valid <;> simp <;> omega
  · rw [dirent, word_setDirent_self b d hj, toNat_word]
    have := d.valid.toNat_le
    cases d.isDir <;> simp <;> omega
  · rw [dirent, word_setDirent_self b d hj, toNat_word]
    apply BitVec.eq_of_toNat_eq
    have hv' := d.valid.toNat_le
    have hd' := d.isDir.toNat_le
    simp only [BitVec.toNat_ofNat]
    omega
  · funext i
    have hdiv : (32 * j + 4 + (i : ℕ)) / 32 = j := by omega
    have hmod : (32 * j + 4 + (i : ℕ)) % 32 = 4 + i := by omega
    simp only [dirent]
    rw [setDirent, byte_ofFn _ (by omega), if_pos hdiv, hmod, if_neg (by omega),
      Nat.add_sub_cancel_left, Dirent.nameByte, dif_pos i.isLt]

/-- Storing a directory entry leaves the others alone. -/
theorem dirent_setDirent_of_ne (b : Block) {j k : ℕ} (d : Dirent) (hjk : k ≠ j) :
    (b.setDirent j d).dirent k = b.dirent k := by
  have hw : (b.setDirent j d).word (8 * k) = b.word (8 * k) :=
    wordOf_congr fun t ht => byte_setDirent_of_ne b d (by omega)
  have hn : ∀ i : Fin 28, (b.setDirent j d).byte (32 * k + 4 + i) = b.byte (32 * k + 4 + i) :=
    fun i => byte_setDirent_of_ne b d (by omega)
  simp only [dirent, hw, hn]

@[simp] theorem dirent_zero (j : ℕ) : zero.dirent j = Dirent.zero := by
  simp only [dirent, word_zero, byte_zero, Dirent.zero]
  rfl

end Block

/-! ## Inodes -/

/-- `struct fs_inode`: sixteen words. -/
structure Inode where
  uid : UInt16
  gid : UInt16
  mode : UInt32
  ctime : UInt32
  mtime : UInt32
  size : Int32
  direct : Fin 6 → UInt32
  indir1 : UInt32
  indir2 : UInt32
  pad : Fin 3 → UInt32

namespace Inode

/-- `memset(&inode, 0, sizeof(struct fs_inode))`. -/
def zero : Inode := ⟨0, 0, 0, 0, 0, 0, fun _ => 0, 0, 0, fun _ => 0⟩

/-- `inode.direct[k]`; zero past the end. -/
def directAt (ino : Inode) (k : ℕ) : UInt32 := if h : k < 6 then ino.direct ⟨k, h⟩ else 0

/-- `inode.direct[k] = p`. -/
def setDirect (ino : Inode) (k : ℕ) (p : UInt32) : Inode :=
  { ino with direct := fun i => if (i : ℕ) = k then p else ino.direct i }

theorem directAt_setDirect (ino : Inode) {k : ℕ} (p : UInt32) (i : ℕ) (hk : k < 6) :
    (ino.setDirect k p).directAt i = if i = k then p else ino.directAt i := by
  by_cases hi : i < 6
  · simp [directAt, setDirect, hi]
  · rw [if_neg (by omega)]
    simp [directAt, hi]

/-- Word `k` of the record. -/
def word (ino : Inode) : ℕ → UInt32
  | 0 => UInt32.ofNat (ino.uid.toNat + 65536 * ino.gid.toNat)
  | 1 => ino.mode
  | 2 => ino.ctime
  | 3 => ino.mtime
  | 4 => ino.size.toUInt32
  | 5 => ino.direct 0
  | 6 => ino.direct 1
  | 7 => ino.direct 2
  | 8 => ino.direct 3
  | 9 => ino.direct 4
  | 10 => ino.direct 5
  | 11 => ino.indir1
  | 12 => ino.indir2
  | 13 => ino.pad 0
  | 14 => ino.pad 1
  | 15 => ino.pad 2
  | _ => 0

/-- The record with the given words. -/
def ofWords (f : ℕ → UInt32) : Inode where
  uid := UInt16.ofNat (f 0).toNat
  gid := UInt16.ofNat ((f 0).toNat / 65536)
  mode := f 1
  ctime := f 2
  mtime := f 3
  size := (f 4).toInt32
  direct := fun i => f (5 + i)
  indir1 := f 11
  indir2 := f 12
  pad := fun i => f (13 + i)

theorem ofWords_congr {f g : ℕ → UInt32} (h : ∀ k < 16, f k = g k) : ofWords f = ofWords g := by
  have hd : (fun i : Fin 6 => f (5 + i)) = fun i : Fin 6 => g (5 + i) :=
    funext fun i => h _ (by omega)
  have hp : (fun i : Fin 3 => f (13 + i)) = fun i : Fin 3 => g (13 + i) :=
    funext fun i => h _ (by omega)
  simp only [ofWords, h 0 (by omega), h 1 (by omega), h 2 (by omega), h 3 (by omega),
    h 4 (by omega), h 11 (by omega), h 12 (by omega), hd, hp]

@[simp] theorem ofWords_word (ino : Inode) : ofWords ino.word = ino := by
  have hu := ino.uid.toNat_lt
  have hg := ino.gid.toNat_lt
  have hw : (ino.word 0).toNat = ino.uid.toNat + 65536 * ino.gid.toNat := by
    simp only [word, UInt32.toNat_ofNat']
    omega
  have huid : UInt16.ofNat (ino.word 0).toNat = ino.uid := by
    apply UInt16.toNat.inj
    rw [UInt16.toNat_ofNat', hw]
    omega
  have hgid : UInt16.ofNat ((ino.word 0).toNat / 65536) = ino.gid := by
    apply UInt16.toNat.inj
    rw [UInt16.toNat_ofNat', hw]
    omega
  have hdirect : (fun i : Fin 6 => ino.word (5 + i)) = ino.direct := by
    funext i
    fin_cases i <;> rfl
  have hpad : (fun i : Fin 3 => ino.word (13 + i)) = ino.pad := by
    funext i
    fin_cases i <;> rfl
  rw [ofWords, huid, hgid, hdirect, hpad]
  simp only [word, Int32.toInt32_toUInt32]

theorem word_ofWords (f : ℕ → UInt32) {k : ℕ} (hk : k < 16) : (ofWords f).word k = f k := by
  have hzero : (ofWords f).word 0 = f 0 := by
    have hf := (f 0).toNat_lt
    apply UInt32.toNat.inj
    simp only [word, ofWords, UInt32.toNat_ofNat', UInt16.toNat_ofNat']
    omega
  match k, hk with
  | 0, _ => exact hzero
  | 1, _ | 2, _ | 3, _ | 4, _ | 5, _ | 6, _ | 7, _ | 8, _ | 9, _ | 10, _ | 11, _ | 12, _
  | 13, _ | 14, _ | 15, _ => rfl
  | n + 16, h => omega

end Inode

/-- Inode `i` of the inode region, `INODES_PER_BLK = 16` to a block. -/
def inodeAt (f : ℕ → Block) (i : ℕ) : Inode :=
  Inode.ofWords fun k => (f (i / 16)).word (16 * (i % 16) + k)

/-- Block `k` of an inode region laid out on disk. -/
def inodeBlock (inodes : ℕ → Inode) (k : ℕ) : Block :=
  Block.ofWords fun w => (inodes (16 * k + w / 16)).word (w % 16)

/-- An inode table written out and read back is the table. -/
@[simp] theorem inodeAt_inodeBlock (inodes : ℕ → Inode) (i : ℕ) :
    inodeAt (inodeBlock inodes) i = inodes i := by
  refine Eq.trans (Inode.ofWords_congr fun k hk => ?_) (Inode.ofWords_word (inodes i))
  have hdiv : 16 * (i / 16) + (16 * (i % 16) + k) / 16 = i := by omega
  have hmod : (16 * (i % 16) + k) % 16 = k := by omega
  rw [inodeBlock, Block.word_ofWords _ (by omega), hdiv, hmod]

/-- A run of blocks is determined by its inodes. -/
theorem inodeBlock_eq {inodes : ℕ → Inode} {f : ℕ → Block} {k : ℕ}
    (h : ∀ i, i / 16 = k → inodes i = inodeAt f i) : inodeBlock inodes k = f k := by
  rw [inodeBlock, ← Block.ofWords_word (f k)]
  refine Block.ext fun x hx => ?_
  simp only [Block.ofWords]
  rw [Block.byte_ofFn _ hx, Block.byte_ofFn _ hx]
  have hdiv : (16 * k + x / 4 / 16) / 16 = k := by omega
  have hmod : (16 * k + x / 4 / 16) % 16 = x / 4 / 16 := by omega
  have hword : 16 * (x / 4 / 16) + x / 4 % 16 = x / 4 := by omega
  rw [h _ hdiv, inodeAt, Inode.word_ofWords _ (Nat.mod_lt _ (by omega)), hdiv, hmod, hword]

/-- A block of an inode table is determined by the inodes that it holds. -/
theorem inodeBlock_congr {inodes inodes' : ℕ → Inode} {k : ℕ} (h : ∀ i, i / 16 = k → inodes' i = inodes i) :
    inodeBlock inodes' k = inodeBlock inodes k :=
  inodeBlock_eq fun i hi => (h i hi).trans (inodeAt_inodeBlock inodes i).symm

/-- A run of blocks holds an inode table exactly when every inode of it reads as in the table. -/
theorem forall_eq_inodeBlock_iff {inodes : ℕ → Inode} {f : ℕ → Block} {sz : ℕ} :
    (∀ k < sz, f k = inodeBlock inodes k) ↔ ∀ i < 16 * sz, inodeAt f i = inodes i := by
  constructor
  · intro h i hi
    rw [inodeAt, h (i / 16) (by omega), ← inodeAt, inodeAt_inodeBlock]
  · intro h k hk
    exact (inodeBlock_eq fun i hi => (h i (by omega)).symm).symm

/-! ## The superblock -/

/-- `struct fs_super`: six words and padding. -/
structure Super where
  magic : UInt32
  inodeMapSz : UInt32
  inodeRegionSz : UInt32
  blockMapSz : UInt32
  numBlocks : UInt32
  rootInode : UInt32

namespace Super

/-- Word `k` of the record; the padding is zero. -/
def word (sb : Super) : ℕ → UInt32
  | 0 => sb.magic
  | 1 => sb.inodeMapSz
  | 2 => sb.inodeRegionSz
  | 3 => sb.blockMapSz
  | 4 => sb.numBlocks
  | 5 => sb.rootInode
  | _ => 0

/-- The block that holds the record. -/
def block (sb : Super) : Block := Block.ofWords sb.word

/-- The record read from a block. -/
def ofBlock (b : Block) : Super :=
  ⟨b.word 0, b.word 1, b.word 2, b.word 3, b.word 4, b.word 5⟩

@[simp] theorem ofBlock_block (sb : Super) : ofBlock sb.block = sb := by
  simp [ofBlock, block, word]

end Super

end Fsx600
