import Fsx600.Model.State
import Fsx600.Lib.Ownership

/-!
# Block pointers

The pointers of a file live at three levels, and a claim about "every block an inode
references" ranges over all of them.  A `Slot` names one place a pointer can stand;
`Inode.pointer` reads it off the inode and the blocks of pointers on disk, and
`FS.owner` is the table of who holds which block, over all allocated inodes at once.

A directory has one slot that counts, `direct[0]`.
-/

namespace Fsx600

/-- A place where an inode can hold the number of a block. -/
inductive Slot where
  | direct (k : ℕ)
  | indir1
  /-- Entry `k` of the block `indir_1`. -/
  | level1 (k : ℕ)
  | indir2
  /-- Entry `i` of the block `indir_2`: a level-1 block. -/
  | outer (i : ℕ)
  /-- Entry `j` of the level-1 block in entry `i` of `indir_2`. -/
  | inner (i j : ℕ)
  deriving DecidableEq

namespace Slot

/-- The slots that hold blocks of pointers. -/
def IsTable : Slot → Prop
  | indir1 | indir2 | outer _ => True
  | _ => False

/-- The slots that stand in blocks of pointers. -/
def IsEntry : Slot → Prop
  | level1 _ | outer _ | inner _ _ => True
  | _ => False

end Slot

/-- The slot of data block `x` of a file. -/
def dataSlot (x : ℕ) : Slot :=
  if x < 6 then .direct x
  else if x < 262 then .level1 (x - 6)
  else .inner ((x - 262) / 256) ((x - 262) % 256)

theorem not_isTable_dataSlot (x : ℕ) : ¬ (dataSlot x).IsTable := by
  unfold dataSlot
  split_ifs <;> exact id

theorem dataSlot_injective {x y : ℕ} (h : dataSlot x = dataSlot y) : x = y := by
  unfold dataSlot at h
  split_ifs at h <;> simp only [Slot.direct.injEq, Slot.level1.injEq, Slot.inner.injEq] at h <;>
    omega

/-- Entry `k` of the block of pointers that `p` names; a zero pointer has none. -/
def tableWord (disk : ℕ → Block) (p : UInt32) (k : ℕ) : UInt32 :=
  if p = 0 then 0 else (disk p.toNat).word k

@[simp] theorem tableWord_zero (disk : ℕ → Block) (k : ℕ) : tableWord disk 0 k = 0 := by
  simp [tableWord]

theorem tableWord_of_ne_zero {disk : ℕ → Block} {p : UInt32} (hp : p ≠ 0) (k : ℕ) :
    tableWord disk p k = (disk p.toNat).word k := by
  rw [tableWord, if_neg hp]

theorem tableWord_of_le (disk : ℕ → Block) (p : UInt32) {k : ℕ} (hk : 256 ≤ k) :
    tableWord disk p k = 0 := by
  rw [tableWord, Block.word_of_le _ hk, ite_self]

theorem tableWord_congr {disk disk' : ℕ → Block} {p : UInt32} {k : ℕ}
    (h : p ≠ 0 → disk' p.toNat = disk p.toNat) : tableWord disk' p k = tableWord disk p k := by
  by_cases hp : p = 0
  · simp [hp]
  · rw [tableWord_of_ne_zero hp, tableWord_of_ne_zero hp, h hp]

namespace Inode

/-- The pointer in a slot of a file; zero for none. -/
def pointer (disk : ℕ → Block) (ino : Inode) : Slot → UInt32
  | .direct k => ino.directAt k
  | .indir1 => ino.indir1
  | .level1 k => tableWord disk ino.indir1 k
  | .indir2 => ino.indir2
  | .outer i => tableWord disk ino.indir2 i
  | .inner i j => tableWord disk (tableWord disk ino.indir2 i) j

/-- Two inodes with the same pointers, over disks that agree on the blocks of
pointers, have the same pointers in all slots. -/
theorem pointer_congr {disk disk' : ℕ → Block} {ino ino' : Inode} (hd : ino'.direct = ino.direct)
    (h1 : ino'.indir1 = ino.indir1) (h2 : ino'.indir2 = ino.indir2)
    (hdisk : ∀ σ : Slot, σ.IsTable → ino.pointer disk σ ≠ 0 →
      disk' (ino.pointer disk σ).toNat = disk (ino.pointer disk σ).toNat) :
    ino'.pointer disk' = ino.pointer disk := by
  have hlevel : ∀ k, tableWord disk' ino.indir1 k = tableWord disk ino.indir1 k :=
    fun k => tableWord_congr (hdisk .indir1 trivial)
  have houter : ∀ i, tableWord disk' ino.indir2 i = tableWord disk ino.indir2 i :=
    fun i => tableWord_congr (hdisk .indir2 trivial)
  have hinner : ∀ i j, tableWord disk' (tableWord disk ino.indir2 i) j =
      tableWord disk (tableWord disk ino.indir2 i) j :=
    fun i j => tableWord_congr (hdisk (.outer i) trivial)
  funext σ
  cases σ with
  | direct k => simp only [pointer, directAt, hd]
  | indir1 => exact h1
  | level1 k => simp only [pointer, h1, hlevel]
  | indir2 => exact h2
  | outer i => simp only [pointer, h2, houter]
  | inner i j => simp only [pointer, h2, houter, hinner]

/-- A file without blocks. -/
def Empty (ino : Inode) : Prop := ino.direct = (fun _ => 0) ∧ ino.indir1 = 0 ∧ ino.indir2 = 0

instance (ino : Inode) : Decidable ino.Empty :=
  decidable_of_iff ((∀ k, ino.direct k = 0) ∧ ino.indir1 = 0 ∧ ino.indir2 = 0)
    (and_congr_left' funext_iff.symm)

theorem Empty.pointer {ino : Inode} (h : ino.Empty) (disk : ℕ → Block) (σ : Slot) :
    ino.pointer disk σ = 0 := by
  obtain ⟨hd, h1, h2⟩ := h
  cases σ with
  | direct k =>
    simp only [Inode.pointer, directAt, hd]
    split <;> rfl
  | indir1 => exact h1
  | level1 k => simp only [Inode.pointer, h1, tableWord_zero]
  | indir2 => exact h2
  | outer i => simp only [Inode.pointer, h2, tableWord_zero]
  | inner i j => simp only [Inode.pointer, h2, tableWord_zero]

end Inode

namespace FS

variable {g : Layout}

/-- `S_ISDIR(inodes[i].mode)`. -/
def isDir (s : FS g) (i : ℕ) : Bool := sIsDir (s.inodes i).mode

/-- The block that an inode references through a slot: `direct[0]` for a directory,
every nonzero pointer for anything else. -/
def refers (s : FS g) (i : ℕ) (σ : Slot) : Option ℕ :=
  if s.isDir i then
    if σ = .direct 0 then some ((s.inodes i).directAt 0).toNat else none
  else
    if (s.inodes i).pointer s.disk σ = 0 then none
    else some ((s.inodes i).pointer s.disk σ).toNat

/-- Which block each slot of each allocated inode holds. -/
def owner (s : FS g) (x : ℕ × Slot) : Option ℕ := if s.inodeMap x.1 then s.refers x.1 x.2 else none

/-- A block of the data region whose bit is set. -/
def InUse (s : FS g) (b : ℕ) : Prop :=
  g.startBlock ≤ b ∧ b < g.maxNumBlocks ∧ s.blockMap b = true

/-- A block of the data region whose bit is clear. -/
def Free (s : FS g) (b : ℕ) : Prop :=
  g.startBlock ≤ b ∧ b < g.maxNumBlocks ∧ s.blockMap b = false

theorem Free.not_inUse {s : FS g} {b : ℕ} (h : s.Free b) : ¬ s.InUse b := by
  rintro ⟨-, -, hb⟩
  rw [h.2.2] at hb
  exact Bool.false_ne_true hb

/-- Byte `x` of the contents of a file, if the block it is in is mapped. -/
def byteAt (s : FS g) (i x : ℕ) : Option UInt8 :=
  if (s.inodes i).pointer s.disk (dataSlot (x / 1024)) = 0 then none
  else some
    ((s.disk ((s.inodes i).pointer s.disk (dataSlot (x / 1024))).toNat).byte (x % 1024))

theorem owner_eq_some {s : FS g} {i : ℕ} {σ : Slot} {b : ℕ} :
    s.owner (i, σ) = some b ↔ s.inodeMap i = true ∧ s.refers i σ = some b := by
  rw [owner]
  by_cases h : s.inodeMap i = true <;> simp [h]

theorem refers_of_isDir {s : FS g} {i : ℕ} (h : s.isDir i = true) :
    s.refers i (.direct 0) = some ((s.inodes i).directAt 0).toNat := by
  rw [refers, if_pos h, if_pos rfl]

theorem refers_eq_some_of_file {s : FS g} {i : ℕ} {σ : Slot} {b : ℕ} (h : s.isDir i = false) :
    s.refers i σ = some b ↔ (s.inodes i).pointer s.disk σ ≠ 0 ∧
      ((s.inodes i).pointer s.disk σ).toNat = b := by
  rw [refers, if_neg (by simp [h])]
  by_cases hp : (s.inodes i).pointer s.disk σ = 0 <;> simp [hp]

/-- What a directory references depends on its inode, and what a file references on its
inode and on the blocks it references. -/
theorem refers_congr {s s' : FS g} {i : ℕ} (hm : s'.isDir i = s.isDir i)
    (hd : (s'.inodes i).direct = (s.inodes i).direct)
    (h1 : (s'.inodes i).indir1 = (s.inodes i).indir1)
    (h2 : (s'.inodes i).indir2 = (s.inodes i).indir2)
    (hdisk : s.isDir i = false → ∀ σ b, s.refers i σ = some b → s'.disk b = s.disk b) :
    s'.refers i = s.refers i := by
  funext σ
  by_cases h : s.isDir i = true
  · rw [refers, refers, if_pos h, if_pos (hm.trans h), Inode.directAt, Inode.directAt, hd]
  · have hf : s.isDir i = false := by simpa using h
    have hp : (s'.inodes i).pointer s'.disk = (s.inodes i).pointer s.disk :=
      Inode.pointer_congr hd h1 h2 fun τ _ hτ =>
        hdisk hf τ _ ((refers_eq_some_of_file hf).2 ⟨hτ, rfl⟩)
    rw [refers, refers, hm, hp, if_neg h, if_neg h]

/-- So do the contents of a file. -/
theorem byteAt_congr {s s' : FS g} {i : ℕ} (hf : s.isDir i = false)
    (hd : (s'.inodes i).direct = (s.inodes i).direct)
    (h1 : (s'.inodes i).indir1 = (s.inodes i).indir1)
    (h2 : (s'.inodes i).indir2 = (s.inodes i).indir2)
    (hdisk : ∀ σ b, s.refers i σ = some b → s'.disk b = s.disk b) (x : ℕ) :
    s'.byteAt i x = s.byteAt i x := by
  have hp : (s'.inodes i).pointer s'.disk = (s.inodes i).pointer s.disk :=
    Inode.pointer_congr hd h1 h2 fun τ _ hτ =>
      hdisk τ _ ((refers_eq_some_of_file hf).2 ⟨hτ, rfl⟩)
  rw [byteAt, byteAt, hp]
  by_cases hz : (s.inodes i).pointer s.disk (dataSlot (x / 1024)) = 0
  · rw [if_pos hz, if_pos hz]
  · rw [if_neg hz, if_neg hz, hdisk _ _ ((refers_eq_some_of_file hf).2 ⟨hz, rfl⟩)]

end FS

end Fsx600
