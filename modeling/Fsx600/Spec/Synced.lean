import Fsx600.Spec.Fresh
import Fsx600.Spec.Primitives

/-!
# Synchronised states

A state is synchronised when the three regions in front of the data hold what the two
bitmaps and the inode table hold in memory.  Then mounting the disk again gives the same
bitmaps and the same inodes (`Synced.mounted`).
-/

namespace Fsx600

namespace FS

variable {g : Layout} {s : FS g}

/-- The on-disk inode map is `inode_map`. -/
def InodeMapSynced (s : FS g) : Prop := ∀ k < g.inodeMapSz, s.disk (1 + k) = mapBlock s.inodeMap k

/-- The on-disk block map is `block_map`. -/
def BlockMapSynced (s : FS g) : Prop :=
  ∀ k < g.blockMapSz, s.disk (1 + g.inodeMapSz + k) = mapBlock s.blockMap k

/-- The on-disk inode region is `inodes`. -/
def InodesSynced (s : FS g) : Prop :=
  ∀ k < g.inodeRegSz, s.disk (1 + g.inodeMapSz + g.blockMapSz + k) = inodeBlock s.inodes k

/-- The disk holds what memory holds. -/
structure Synced (s : FS g) : Prop where
  inodeMap : s.InodeMapSynced
  blockMap : s.BlockMapSynced
  inodes : s.InodesSynced

/-- Every bit of the inode map on the disk is the one in memory. -/
theorem inodeMapSynced_iff :
    s.InodeMapSynced ↔ ∀ i < g.inodeBits, mapBit (fun k => s.disk (1 + k)) i = s.inodeMap i :=
  forall_eq_mapBlock_iff

/-- Every bit of the block map on the disk is the one in memory. -/
theorem blockMapSynced_iff :
    s.BlockMapSynced ↔
      ∀ i < g.blockBits, mapBit (fun k => s.disk (1 + g.inodeMapSz + k)) i = s.blockMap i :=
  forall_eq_mapBlock_iff

/-- Every inode on the disk is the one in memory. -/
theorem inodesSynced_iff :
    s.InodesSynced ↔ ∀ i < g.numInodes,
      inodeAt (fun k => s.disk (1 + g.inodeMapSz + g.blockMapSz + k)) i = s.inodes i :=
  forall_eq_inodeBlock_iff

/-- Flushing a synchronised inode map changes nothing. -/
theorem InodeMapSynced.disk_writeInodeMap (h : s.InodeMapSynced) : s.writeInodeMap.disk = s.disk := by
  funext b
  change (if 1 ≤ b ∧ b < 1 + g.inodeMapSz then mapBlock s.inodeMap (b - 1) else s.disk b) = s.disk b
  split
  · next hb =>
    rw [← h (b - 1) (by omega), Nat.add_sub_cancel' hb.1]
  · rfl

/-- What is in front of the inode region comes from the superblock and the bitmaps. -/
theorem Synced.disk_congr {s' : FS g} (h : s.Synced) (h' : s'.Synced) (h0 : s'.disk 0 = s.disk 0)
    (hi : s'.inodeMap = s.inodeMap) (hb : s'.blockMap = s.blockMap) {x : ℕ}
    (hx : x < 1 + g.inodeMapSz + g.blockMapSz) : s'.disk x = s.disk x := by
  rcases Nat.eq_zero_or_pos x with rfl | hpos
  · exact h0
  by_cases hmap : x < 1 + g.inodeMapSz
  · obtain ⟨k, rfl⟩ := Nat.exists_eq_add_of_le hpos
    have hk : k < g.inodeMapSz := by omega
    have hpre : s.disk (1 + k) = mapBlock s.inodeMap k := h.inodeMap k hk
    have hpost : s'.disk (1 + k) = mapBlock s'.inodeMap k := h'.inodeMap k hk
    exact hpost.trans ((congrArg (mapBlock · k) hi).trans hpre.symm)
  · obtain ⟨k, rfl⟩ := Nat.exists_eq_add_of_le (not_lt.1 hmap)
    have hk : k < g.blockMapSz := by omega
    have hpre := h.blockMap k hk
    have hpost := h'.blockMap k hk
    rw [hpost, hb, hpre]

/-- **Mounting again.**  The bitmaps and the inode table come back. -/
theorem Synced.mounted (h : s.Synced) (hsb : g.Describes s.image) :
    fsInit s.image = .ok ⟨g, mounted g s.image⟩ ∧
      (∀ i < g.inodeBits, (mounted g s.image).inodeMap i = s.inodeMap i) ∧
      (∀ i < g.blockBits, (mounted g s.image).blockMap i = s.blockMap i) ∧
      ∀ i < g.numInodes, (mounted g s.image).inodes i = s.inodes i := by
  refine ⟨fsInit_eq hsb, fun i hi => ?_, fun i hi => ?_, fun i hi => ?_⟩
  · change (decide (i < g.inodeBits) && mapBit (fun k => s.disk (1 + k)) i) = _
    rw [decide_eq_true hi, Bool.true_and, inodeMapSynced_iff.1 h.inodeMap i hi]
  · change (decide (i < g.blockBits) && mapBit (fun k => s.disk (1 + g.inodeMapSz + k)) i) = _
    rw [decide_eq_true hi, Bool.true_and, blockMapSynced_iff.1 h.blockMap i hi]
  · change (if i < g.numInodes then
      inodeAt (fun k => s.disk (1 + g.inodeMapSz + g.blockMapSz + k)) i else Inode.zero) = _
    rw [if_pos hi, inodesSynced_iff.1 h.inodes i hi]

end FS

/-- A freshly formatted image is synchronised. -/
theorem Mkfs.synced_fresh {n : ℕ} (h : Formattable n) (t : UInt32) : (fresh h t).Synced :=
  ⟨fun _ hk => block_inodeMap hk, fun _ hk => block_blockMap hk, fun _ hk => block_inodes hk⟩

end Fsx600
