import Fsx600.Spec.WellFormed
import Fsx600.Model.Namespace

/-!
# What the helpers do

One lemma for each helper of `main.c` that allocates, frees, reads or writes, in the
form the operations use it: from "the helper returned" to what it returned and how the
state changed.  The bitmaps and the inode table are written back to regions below
`start_block`, so past that the disk is what the single-block writes left there.
-/

namespace Fsx600

open Checked Function

/-! ## File types -/

/-- `mode & S_IFMT`. -/
def fileType (mode : UInt32) : UInt32 := mode &&& S_IFMT

theorem sIsDir_iff (mode : UInt32) : sIsDir mode = true ↔ fileType mode = S_IFDIR := by
  rw [sIsDir, beq_iff_eq, fileType]

theorem sIsReg_iff (mode : UInt32) : sIsReg mode = true ↔ fileType mode = S_IFREG := by
  rw [sIsReg, beq_iff_eq, fileType]

theorem sIsDir_of_regular {mode : UInt32} (h : fileType mode = S_IFREG) : sIsDir mode = false := by
  rw [Bool.eq_false_iff, ne_eq, sIsDir_iff, h]
  decide

theorem fileType_or (m n : UInt32) : fileType (m ||| n) = fileType m ||| fileType n := by
  apply UInt32.toBitVec_inj.1
  simp only [fileType, UInt32.toBitVec_and, UInt32.toBitVec_or]
  ext i hi
  simp [Bool.and_or_distrib_right]

/-- The type that `fs_mkdir` gives its inode. -/
theorem sIsDir_or_of_permissions {mode : UInt32} (h : fileType mode = 0) :
    sIsDir (mode ||| S_IFDIR) = true := by
  rw [sIsDir_iff, fileType_or, h]
  decide

namespace FS

variable {g : Layout} {s s' : FS g}

/-! ## Single fields -/

@[simp] theorem disk_setInodeBit (s : FS g) (i : ℕ) (v : Bool) :
    (s.setInodeBit i v).disk = s.disk := rfl

@[simp] theorem inodeMap_setInodeBit (s : FS g) (i : ℕ) (v : Bool) :
    (s.setInodeBit i v).inodeMap = update s.inodeMap i v := rfl

@[simp] theorem blockMap_setInodeBit (s : FS g) (i : ℕ) (v : Bool) :
    (s.setInodeBit i v).blockMap = s.blockMap := rfl

@[simp] theorem inodes_setInodeBit (s : FS g) (i : ℕ) (v : Bool) :
    (s.setInodeBit i v).inodes = s.inodes := rfl

@[simp] theorem disk_setBlockBit (s : FS g) (i : ℕ) (v : Bool) :
    (s.setBlockBit i v).disk = s.disk := rfl

@[simp] theorem inodeMap_setBlockBit (s : FS g) (i : ℕ) (v : Bool) :
    (s.setBlockBit i v).inodeMap = s.inodeMap := rfl

@[simp] theorem blockMap_setBlockBit (s : FS g) (i : ℕ) (v : Bool) :
    (s.setBlockBit i v).blockMap = update s.blockMap i v := rfl

@[simp] theorem inodes_setBlockBit (s : FS g) (i : ℕ) (v : Bool) :
    (s.setBlockBit i v).inodes = s.inodes := rfl

@[simp] theorem disk_setInode (s : FS g) (i : ℕ) (ino : Inode) :
    (s.setInode i ino).disk = s.disk := rfl

@[simp] theorem inodeMap_setInode (s : FS g) (i : ℕ) (ino : Inode) :
    (s.setInode i ino).inodeMap = s.inodeMap := rfl

@[simp] theorem blockMap_setInode (s : FS g) (i : ℕ) (ino : Inode) :
    (s.setInode i ino).blockMap = s.blockMap := rfl

@[simp] theorem inodes_setInode (s : FS g) (i : ℕ) (ino : Inode) :
    (s.setInode i ino).inodes = update s.inodes i ino := rfl

/-- What an update of one inode keeps of it is kept of all. -/
theorem field_update {α : Type*} (f : Inode → α) {inodes : ℕ → Inode} {i : ℕ} {ino : Inode}
    (h : f ino = f (inodes i)) (k : ℕ) : f (update inodes i ino k) = f (inodes k) := by
  rcases eq_or_ne k i with rfl | hk
  · rw [update_self, h]
  · rw [update_of_ne hk]

/-! ## Flushes -/

@[simp] theorem inodeMap_writeInodeMap (s : FS g) : s.writeInodeMap.inodeMap = s.inodeMap := rfl

@[simp] theorem blockMap_writeInodeMap (s : FS g) : s.writeInodeMap.blockMap = s.blockMap := rfl

@[simp] theorem inodes_writeInodeMap (s : FS g) : s.writeInodeMap.inodes = s.inodes := rfl

@[simp] theorem inodeMap_writeBlockMap (s : FS g) : s.writeBlockMap.inodeMap = s.inodeMap := rfl

@[simp] theorem blockMap_writeBlockMap (s : FS g) : s.writeBlockMap.blockMap = s.blockMap := rfl

@[simp] theorem inodes_writeBlockMap (s : FS g) : s.writeBlockMap.inodes = s.inodes := rfl

@[simp] theorem inodeMap_writeAllInodes (s : FS g) : s.writeAllInodes.inodeMap = s.inodeMap := rfl

@[simp] theorem blockMap_writeAllInodes (s : FS g) : s.writeAllInodes.blockMap = s.blockMap := rfl

@[simp] theorem inodes_writeAllInodes (s : FS g) : s.writeAllInodes.inodes = s.inodes := rfl

/-- A block of the region that was written. -/
theorem disk_writeRegion_add (s : FS g) (first : ℕ) {len k : ℕ} (f : ℕ → Block) (hk : k < len) :
    (s.writeRegion first len f).disk (first + k) = f k := by
  refine (if_pos (by omega)).trans ?_
  rw [Nat.add_sub_cancel_left]

theorem disk_writeRegion_of_lt (s : FS g) {first x : ℕ} (len : ℕ) (f : ℕ → Block) (hx : x < first) :
    (s.writeRegion first len f).disk x = s.disk x :=
  if_neg (by omega)

theorem disk_writeRegion_of_ge (s : FS g) {first len x : ℕ} (f : ℕ → Block) (hx : first + len ≤ x) :
    (s.writeRegion first len f).disk x = s.disk x :=
  if_neg (by omega)

theorem disk_writeInodeMap (s : FS g) {b : ℕ} (hb : g.startBlock ≤ b) :
    s.writeInodeMap.disk b = s.disk b := by
  rw [Layout.startBlock] at hb
  exact disk_writeRegion_of_ge _ _ (by omega)

theorem disk_writeBlockMap (s : FS g) {b : ℕ} (hb : g.startBlock ≤ b) :
    s.writeBlockMap.disk b = s.disk b := by
  rw [Layout.startBlock] at hb
  exact disk_writeRegion_of_ge _ _ (by omega)

theorem disk_writeAllInodes (s : FS g) {b : ℕ} (hb : g.startBlock ≤ b) :
    s.writeAllInodes.disk b = s.disk b := by
  rw [Layout.startBlock] at hb
  exact disk_writeRegion_of_ge _ _ (by omega)

/-! ## Single blocks -/

/-- The state after a single-block write. -/
def putBlock (s : FS g) (p : ℕ) (b : Block) : FS g :=
  { s with disk := update s.disk p b, trace := p :: s.trace }

@[simp] theorem inodeMap_putBlock (s : FS g) (p : ℕ) (b : Block) :
    (s.putBlock p b).inodeMap = s.inodeMap := rfl

@[simp] theorem blockMap_putBlock (s : FS g) (p : ℕ) (b : Block) :
    (s.putBlock p b).blockMap = s.blockMap := rfl

@[simp] theorem inodes_putBlock (s : FS g) (p : ℕ) (b : Block) :
    (s.putBlock p b).inodes = s.inodes := rfl

theorem disk_putBlock (s : FS g) (p : ℕ) (b : Block) (x : ℕ) :
    (s.putBlock p b).disk x = if x = p then b else s.disk x :=
  update_apply ..

theorem writeBlock_ok {p : ℕ} {b : Block} (h : s.writeBlock p b = .ok s') :
    p < g.nblks ∧ s' = s.putBlock p b := by
  rw [writeBlock, guard_eq_ok] at h
  exact ⟨h.1, (Except.ok.inj h.2).symm⟩

theorem writeBlock_returns {p : ℕ} (hp : p < g.nblks) (b : Block) :
    s.writeBlock p b = .ok (s.putBlock p b) := by
  rw [writeBlock, if_pos hp, putBlock]

/-! ## Allocation -/

/-- A scan of the inode map sees every bit set, or finds a clear one. -/
theorem getFreeInode_ok {o : Option (ℕ × FS g)} (h : s.getFreeInode = .ok o) :
    (o = none ∧ ∀ i < 64, s.inodeMap i = true) ∨
      ∃ n < 64, s.inodeMap n = false ∧ o = some (n, s.setInodeBit n true) := by
  rw [getFreeInode, bind_eq_ok] at h
  obtain ⟨found, hf, h⟩ := h
  rw [pure_eq_ok] at h
  cases found with
  | none =>
    have hall := FirstFit.scan_eq_none hf
    exact Or.inl ⟨h.symm, fun i hi => hall i (Nat.zero_le i) (by omega)⟩
  | some n =>
    obtain ⟨-, hlt, -, hn, -⟩ := FirstFit.scan_eq_some hf
    exact Or.inr ⟨n, by omega, hn, h.symm⟩

/-- A scan of the block map sees no free block, or finds the lowest. -/
theorem getFreeBlock_ok {o : Option (ℕ × FS g)} (h : s.getFreeBlock = .ok o) :
    (o = none ∧ ∀ b, ¬ s.Free b) ∨
      ∃ b, s.Free b ∧ (∀ x < b, ¬ s.Free x) ∧ o = some (b, s.setBlockBit b true) := by
  rw [getFreeBlock, bind_eq_ok] at h
  obtain ⟨found, hf, h⟩ := h
  rw [pure_eq_ok] at h
  cases found with
  | none =>
    have hall := FirstFit.scan_eq_none hf
    refine Or.inl ⟨h.symm, fun b hb => ?_⟩
    obtain ⟨h1, h2, h3⟩ := hb
    rw [hall b h1 (by omega)] at h3
    exact Bool.noConfusion h3
  | some b =>
    obtain ⟨h1, h2, -, hb, hall⟩ := FirstFit.scan_eq_some hf
    refine Or.inr ⟨b, ⟨h1, by omega, hb⟩, fun x hx hfree => ?_, h.symm⟩
    obtain ⟨hx1, -, hx3⟩ := hfree
    rw [hall x hx1 hx] at hx3
    exact Bool.noConfusion hx3

theorem freeABlock_ok {bit : ℤ} (h : s.freeABlock bit = .ok s') :
    s' = if bit ≥ g.startBlock then s.setBlockBit bit.toNat false else s := by
  rw [freeABlock] at h
  split at h
  · next hb =>
    rw [guard_eq_ok] at h
    rw [if_pos hb]
    exact (Except.ok.inj h.2).symm
  · next hb =>
    rw [if_neg hb]
    exact (Except.ok.inj h).symm

/-! ## Numbers of blocks -/

/-- A pointer into the data region is not empty. -/
theorem ne_zero_of_startBlock_le {p : UInt32} (h : g.startBlock ≤ p.toNat) : p ≠ 0 := by
  rintro rfl
  have := g.startBlock_pos
  rw [UInt32.toNat_zero] at h
  omega

/-- A block of the data region survives being stored in a pointer and read as an
`int`. -/
theorem cInt_of_inUse (hlt : g.maxNumBlocks < 2 ^ 31) {p : UInt32} (hp : s.InUse p.toNat) :
    cInt p = p.toNat := by
  have := hp.2.1
  exact cInt_of_lt (by omega)

theorem toNat_ofNat_of_lt (hlt : g.maxNumBlocks < 2 ^ 31) {b : ℕ} (hb : b < g.maxNumBlocks) :
    (UInt32.ofNat b).toNat = b := by
  rw [UInt32.toNat_ofNat']
  omega

/-! ## Scans of a directory block -/

theorem freeSlot_eq_some {b : Block} {j : ℕ} (h : freeSlot b = some j) :
    j < 32 ∧ (b.dirent j).valid = false ∧ ∀ k < j, (b.dirent k).valid = true := by
  rw [freeSlot, List.find?_range_eq_some, List.mem_range] at h
  obtain ⟨h1, h2, h3⟩ := h
  exact ⟨h2, by simpa using h1, fun k hk => by simpa using h3 k hk⟩

theorem freeSlot_eq_none {b : Block} (h : freeSlot b = none) : ∀ j < 32, (b.dirent j).valid = true := by
  rw [freeSlot, List.find?_range_eq_none] at h
  exact fun j hj => by simpa using h j hj

/-- The slot order makes the search by number find the valid entry. -/
theorem Wf.slotOfInode_eq (h : Wf s) {p j i : ℕ} (he : s.Edge p j i) :
    slotOfInode (s.dirBlock p) i = some j := by
  obtain ⟨hp, hj, hv, hi⟩ := he
  rw [slotOfInode, List.find?_range_eq_some, List.mem_range]
  refine ⟨beq_iff_eq.2 (congrArg Nat.cast hi), hj, fun k hk => ?_⟩
  have hne := h.slot_order p k j hp hk hj hv
  rw [Bool.not_eq_true', beq_eq_false_iff_ne]
  intro hk'
  apply hne
  apply BitVec.eq_of_toNat_eq
  rw [hi]
  exact_mod_cast hk'

end FS

end Fsx600
