import Fsx600.Spec.Truncation
import Fsx600.Spec.Preservation
import Fsx600.Model.Calls
import Mathlib.Data.List.TakeWhile

/-!
# The operations on names return

In a well-formed state on an image with room for 64 inodes nothing stops the program on a
small path that has a parent: every inode number that a walk meets is below 64, every block
it reads is below `num_blocks`, and a name of at most 25 bytes has room for its NUL.

A path without components has no parent.  `get_parent_inum` says so with `-EINVAL`, and it
depends on the operation whether that number gets as far as `inodes`.
-/

namespace Fsx600

open Checked Function

namespace FS

variable {g : Layout} {s s' : FS g} {c : Context} {path : Path}

/-! ## The walkers return -/

theorem Indexed.inode_returns (h : Indexed s) {i : ℕ} (hi : s.inodeMap i = true) :
    s.inode i = .ok (s.inodes i) := by
  have := h.inode_lt i hi
  rw [inode, if_pos ⟨by omega, by omega⟩, Int.toNat_natCast]

theorem Wf.readBlock_inUse (h : Wf s) {b : ℕ} (hb : s.InUse b) : s.readBlock b = .ok (s.disk b) := by
  have := hb.2.1
  have := h.numBlocks_le_nblks
  rw [readBlock, if_pos (by omega)]

/-- A walk from an allocated directory stays inside the arrays. -/
theorem Indexed.walkInside (h : Indexed s) {d : ℕ} (hd : s.AllocDir d) (q : List Name) :
    s.WalkInside d q := by
  induction q generalizing d with
  | nil => trivial
  | cons n q ih =>
    have := h.inode_lt d hd.1
    have := (h.dirBlock_inUse hd).2.1
    have := h.numBlocks_le_nblks
    refine ⟨by omega, by omega, fun j hf hdir => ?_⟩
    have he := edge_of_findEntry hd hf
    exact ih ⟨(h.edge_child he).1, (h.edge_isDir he).symm.trans hdir⟩

theorem Indexed.translatePathToInum_returns (h : Indexed s) (hp : path.tokens.length ≤ 63) :
    Returns (s.translatePathToInum path) :=
  (h.walkInside h.allocDir_one _).translatePathToInum_returns hp

/-- The walk fits its table whatever it finds: a tree of 63 inodes is not deeper. -/
theorem Indexed.translatePathToInum_eq_code (h : Indexed s) (hp : path.tokens.length ≤ 64) :
    s.translatePathToInum path = .ok (code (s.resolve 1 path.tokens)) := by
  suffices hret : Returns (s.translatePathToInum path) by
    obtain ⟨z, hz⟩ := hret
    rw [hz, translatePathToInum_ok hz]
  have hin := h.walkInside h.allocDir_one path.tokens
  by_cases hlt : path.tokens.length ≤ 63
  · exact hin.translatePathToInum_returns hlt
  · rw [translatePathToInum, Path.split, if_pos hp, ok_bind]
    refine hin.translateLoop_returns_of_walk (by omega) fun p hw => ?_
    have hle := h.length_le (resolve_of_walk hw)
    rw [List.length_dropLast] at hle
    omega

theorem Indexed.translate_iff (h : Indexed s) {i : ℕ} :
    s.translatePathToInum path = .ok (i : ℤ) ↔ s.resolve 1 path.tokens = .inr i := by
  refine ⟨resolve_of_translate, fun hr => ?_⟩
  have := h.length_le hr
  rw [h.translatePathToInum_eq_code (by omega), hr, code_inr]

/-- Paths of equal length that lead to the same inode, or fail alike. -/
theorem Indexed.translate_congr (h : Indexed s) (h' : Indexed s') {path' : Path}
    (hlen : path'.tokens.length = path.tokens.length)
    (hr : s'.resolve 1 path'.tokens = s.resolve 1 path.tokens) :
    s'.translatePathToInum path' = s.translatePathToInum path := by
  by_cases hp : path.tokens.length ≤ 64
  · rw [h.translatePathToInum_eq_code hp, h'.translatePathToInum_eq_code (hlen ▸ hp), hr]
  · rw [translatePathToInum, translatePathToInum, Path.split, Path.split, if_neg hp,
      if_neg (hlen ▸ hp)]
    rfl

theorem Indexed.getParentInum_returns (h : Indexed s) (hp : path.Small) :
    Returns (s.getParentInum path) :=
  (h.walkInside h.allocDir_one _).getParentInum_returns hp.1 fun t ht => (hp.2 t ht).trans (by omega)

/-- A path without components has no parent. -/
theorem getParentInum_of_nil (hnil : path.tokens = []) :
    s.getParentInum path = .ok (-EINVAL, List.replicate 26 0) := by
  rw [getParentInum, Path.split_returns (by rw [hnil]; exact Nat.zero_le _), ok_bind, hnil]
  rfl

theorem translatePathToInum_of_nil (hnil : path.tokens = []) : s.translatePathToInum path = .ok 1 := by
  rw [translatePathToInum, Path.split_returns (by rw [hnil]; exact Nat.zero_le _), ok_bind, hnil]
  rfl

theorem resolve_of_nil (hnil : path.tokens = []) : s.resolve 1 path.tokens = .inr 1 := by
  rw [hnil]
  rfl

theorem Indexed.fsGetattr_returns (h : Indexed s) (hp : path.tokens.length ≤ 63) :
    Returns (s.fsGetattr path) := by
  rw [fsGetattr]
  refine (h.translatePathToInum_returns hp).bind fun ci hci => ?_
  obtain rfl := translatePathToInum_ok hci
  cases hr : s.resolve 1 path.tokens with
  | inl e =>
    rw [code_inl, if_pos (resolve_error hr)]
    exact returns_ok _
  | inr i =>
    rw [code_inr, if_neg (fun hi => natCast_not_error i hi.symm), h.inode_returns (h.alloc_of_resolve hr)]
    exact returns_ok _

theorem getParentInum_ne_einval {pi : ℤ} {buf : List UInt8}
    (hpi : s.getParentInum path = .ok (pi, buf)) (hne : path.tokens ≠ []) : pi ≠ -EINVAL := by
  rcases getParentInum_ok hpi with ⟨hnil, -⟩ | ⟨last, -, rfl, -, -⟩
  · exact absurd hnil hne
  · cases hw : s.walk 1 path.tokens.dropLast with
    | inl e =>
      rw [code_inl]
      rcases walk_error hw with rfl | rfl <;> decide
    | inr p =>
      rw [code_inr, EINVAL]
      omega

theorem bufferString_returns {t : Name} (ht : t.length ≤ 25) :
    Returns (bufferString (t ++ List.replicate (26 - t.length) 0)) := by
  have hlt : ((t ++ List.replicate (26 - t.length) 0).takeWhile (· != 0)).length <
      (t ++ List.replicate (26 - t.length) 0).length := by
    refine lt_of_le_of_ne (List.takeWhile_prefix _).length_le fun heq => ?_
    have hall := List.takeWhile_eq_self_iff.mp ((List.takeWhile_prefix _).eq_of_length heq)
    have h0 : (0 : UInt8) ∈ t ++ List.replicate (26 - t.length) 0 :=
      List.mem_append_right _ (List.mem_replicate.mpr ⟨by omega, rfl⟩)
    exact absurd (hall 0 h0) (by decide)
  rw [bufferString, if_pos hlt]
  exact returns_ok _

theorem bufferString_eq {t : Name} (ht : t.length ≤ 25) (h0 : 0 ∉ t) :
    bufferString (t ++ List.replicate (26 - t.length) 0) = .ok t := by
  obtain ⟨u, hu⟩ := bufferString_returns ht
  rw [hu, (bufferString_ok h0 hu).1]

theorem Indexed.getParentInum_eq (h : Indexed s) (hp : path.Small) {p : ℕ} {last : Name}
    (hpar : s.Parent path p last) :
    s.getParentInum path = .ok ((p : ℤ), last ++ List.replicate (26 - last.length) 0) := by
  obtain ⟨⟨r, buf⟩, hr⟩ := h.getParentInum_returns hp
  rcases getParentInum_ok hr with ⟨hnil, -⟩ | ⟨last', hlast, rfl, -, rfl⟩
  · exact absurd hpar.mem (by rw [hnil]; exact List.not_mem_nil)
  · obtain rfl := Option.some.inj (hpar.last.symm.trans hlast)
    rw [hr, hpar.walk, code_inr]

theorem Indexed.translatePathToInum_eq (h : Indexed s) (hp : path.Small) {p : ℕ} {last : Name}
    (hpar : s.Parent path p last) : s.translatePathToInum path = .ok (code (s.child p last)) := by
  obtain ⟨z, hz⟩ := h.translatePathToInum_returns hp.1
  rw [hz, translatePathToInum_ok hz, hpar.resolve]

/-! ## Allocation -/

theorem Wf.getFreeInode_returns (h : Wf s) : Returns s.getFreeInode := by
  have := h.bits_ge
  rw [getFreeInode]
  exact (FirstFit.scan_returns (by omega)).bind fun _ _ => returns_ok _

theorem Wf.startBlock_lt (h : Wf s) : g.startBlock < g.maxNumBlocks := by
  have huse := h.dirBlock_inUse h.allocDir_one
  exact lt_of_le_of_lt huse.1 huse.2.1

theorem getFreeBlock_returns (h : g.Sized) (t : FS g) : Returns t.getFreeBlock := by
  have := h.le_bits
  rw [getFreeBlock]
  exact (FirstFit.scan_returns (by omega)).bind fun _ _ => returns_ok _

theorem freeABlock_returns {bit : ℤ} (h : bit.toNat < g.blockBits) : Returns (s.freeABlock bit) := by
  rw [freeABlock]
  rw [if_pos h]
  split <;> exact returns_ok _

theorem Wf.lt_nblks (h : Wf s) {b : ℕ} (hb : b < g.maxNumBlocks) : b < g.nblks :=
  hb.trans_le h.numBlocks_le_nblks

/-! ## The operations -/

theorem WellFormed.fsMknod_returns (h : WellFormed s) (hp : path.Proper) (mode : UInt32) :
    Returns (s.fsMknod c path mode) := by
  rw [fsMknod]
  refine (h.indexed.translatePathToInum_returns hp.2.1).bind fun ci hci => ?_
  refine (h.indexed.getParentInum_returns hp.small).bind fun o hpi => ?_
  obtain ⟨pi, buf⟩ := o
  dsimp only
  rcases h.parent_cases hci hpi with ⟨hnil, -⟩ | ⟨e, he, -, -, -, rfl⟩ |
    ⟨p, last, hpar, hdir, rfl, rfl, -, rfl⟩
  · exact absurd hnil hp.ne_nil
  · rw [if_pos he.symm]
    exact returns_ok _
  have huse := h.dirBlock_inUse hdir
  rw [if_neg (natCast_not_error p), h.indexed.inode_returns hdir.1, ok_bind]
  split
  · exact returns_ok _
  split
  · exact returns_ok _
  refine h.getFreeInode_returns.bind fun o ho => ?_
  rcases getFreeInode_ok ho with ⟨rfl, -⟩ | ⟨n, hn64, -, rfl⟩
  · exact returns_ok _
  dsimp only
  have := h.inodes_ge
  rw [readBlock, if_pos (h.lt_nblks huse.2.1), ok_bind, inode,
    if_pos ⟨by omega, by rw [Int.toNat_natCast]; omega⟩, ok_bind]
  split
  · exact returns_ok _
  refine (bufferString_returns (hp.2.2 last hpar.mem)).bind fun name _ => ?_
  have hfinish : ∀ (t : FS g) (ino : Inode) (b : Block),
      Returns (t.mknodFinish n ino ((s.inodes p).directAt 0).toNat b) := fun t ino b => by
    rw [mknodFinish, writeBlock_returns (h.lt_nblks huse.2.1)]
    exact returns_ok _
  split
  · refine (getFreeBlock_returns h.sized _).bind fun o ho => ?_
    rcases getFreeBlock_ok ho with ⟨rfl, -⟩ | ⟨b, hb, -, rfl⟩
    · exact returns_ok _
    · dsimp only
      rw [writeBlock_returns (h.lt_nblks hb.2.1), ok_bind]
      exact hfinish ..
  · exact hfinish ..

/-- A directory that is not empty is not removed, and `fs_rmdir` gets no further. -/
theorem Indexed.fsRmdir_notEmpty (h : Indexed s) (hp : path.Small) {i j : ℕ}
    (hr : s.resolve 1 path.tokens = .inr i) (hd : s.isDir i = true) (hj : j < 32)
    (hv : (s.entry i j).valid = true) : s.fsRmdir path = .ok (-ENOTEMPTY, s) := by
  obtain ⟨ci, hci⟩ := h.translatePathToInum_returns hp.1
  obtain ⟨⟨pi, buf⟩, hpi⟩ := h.getParentInum_returns hp
  have hi := h.alloc_of_resolve hr
  obtain rfl := translatePathToInum_ok hci
  have hany : ((List.range 32).any fun k => ((s.disk ((s.inodes i).directAt 0).toNat).dirent k).valid) =
      true :=
    List.any_eq_true.2 ⟨j, List.mem_range.2 hj, hv⟩
  rw [fsRmdir, hci, ok_bind, hpi, ok_bind]
  dsimp only
  rw [hr, code_inr, if_neg (natCast_not_error i), h.inode_returns hi, ok_bind,
    if_neg (by simpa [isDir] using hd), h.readBlock_inUse (h.dirBlock_inUse ⟨hi, hd⟩), ok_bind,
    if_pos hany]

theorem Indexed.fsRmdir_returns (h : Indexed s) (hp : path.Small)
    (hroot : path.tokens ≠ [] ∨ ∃ j < 32, (s.entry 1 j).valid = true) :
    Returns (s.fsRmdir path) := by
  by_cases hnil : path.tokens = []
  · obtain ⟨j, hj, hv⟩ := hroot.resolve_left (absurd hnil)
    exact ⟨_, h.fsRmdir_notEmpty hp (resolve_of_nil hnil) h.root_isDir hj hv⟩
  rw [fsRmdir]
  refine (h.translatePathToInum_returns hp.1).bind fun ci hci => ?_
  refine (h.getParentInum_returns hp).bind fun o hpi => ?_
  obtain ⟨pi, buf⟩ := o
  dsimp only
  rcases h.parent_cases hci hpi with ⟨hnil', -⟩ | ⟨e, he, -, -, rfl, -⟩ |
    ⟨p, last, hpar, hdir, rfl, rfl, -, -⟩
  · exact absurd hnil' hnil
  · rw [if_pos he.symm]
    exact returns_ok _
  cases hchild : s.child p last with
  | inl e =>
    rw [code_inl, if_pos (Or.inr (child_error hchild).1)]
    exact returns_ok _
  | inr i =>
    obtain ⟨j, -, he⟩ := Wf.edge_of_child hdir hchild
    have hi := (h.edge_child he).1
    rw [code_inr, if_neg (natCast_not_error i), h.inode_returns hi, ok_bind]
    by_cases hd : s.isDir i = true
    swap
    · rw [if_pos (by simpa [isDir] using hd)]
      exact returns_ok _
    have huse := h.dirBlock_inUse ⟨hi, hd⟩
    have huse' := h.dirBlock_inUse hdir
    have hbits := h.numBlocks_le_bits
    have hcint := cInt_of_inUse h.blocks.numBlocks_lt huse
    rw [if_neg (by simpa [isDir] using hd), h.readBlock_inUse huse, ok_bind]
    split
    · exact returns_ok _
    next hany =>
    have hpi : p ≠ i := he.ne_of_leaf (forall_slot_of_not_any hany)
    refine (freeABlock_returns (by rw [hcint, Int.toNat_natCast]; have := huse.2.1; omega)).bind
      fun t ht => ?_
    have hino : t.inodes = s.inodes := by
      obtain rfl := freeABlock_ok ht
      split <;> rfl
    have h64 := h.lt_of_alloc hi
    have hreg := h.inode_lt p hdir.1
    have hbits' := h.bits_ge
    rw [inode, if_pos ⟨by omega, by rw [Int.toNat_natCast]; omega⟩, ok_bind]
    simp only [Int.toNat_natCast, inodes_setInode, inodes_writeBlockMap, update_of_ne hpi, hino]
    rw [readBlock, if_pos (h.lt_nblks huse'.2.1), ok_bind]
    refine Returns.bind ?_ fun o _ => ?_
    · rw [rmdirEntry]
      split
      · exact returns_ok _
      · rw [clearInodeBit, if_pos (by rw [Int.toNat_natCast]; omega)]
        exact returns_ok _
    · obtain ⟨u, b⟩ := o
      dsimp only
      rw [writeBlock_returns (h.lt_nblks huse'.2.1)]
      exact returns_ok _

theorem Indexed.fsRename_returns (h : Indexed s) {dstPath : Path} (hp : path.Small)
    (hp' : dstPath.Small) (hroot : path.tokens ≠ [] ∨ dstPath.tokens ≠ []) :
    Returns (s.fsRename c path dstPath) := by
  rw [fsRename]
  refine (h.getParentInum_returns hp).bind fun o hpi => ?_
  obtain ⟨pi, buf⟩ := o
  dsimp only
  refine (h.translatePathToInum_returns hp.1).bind fun ci hci => ?_
  refine (h.getParentInum_returns hp').bind fun o' hpi' => ?_
  obtain ⟨pi', buf'⟩ := o'
  dsimp only
  rcases h.parent_cases hci hpi with ⟨hnil, rfl, rfl⟩ | ⟨e, he, -, -, rfl, -⟩ |
    ⟨p, last, hpar, hdir, rfl, rfl, -, -⟩
  · -- the destination has a parent or none is found: either way it is not `-EINVAL`
    have hne := getParentInum_ne_einval hpi' (hroot.resolve_left (absurd hnil))
    rw [if_neg (by decide), if_pos hne.symm]
    exact returns_ok _
  · rw [if_pos he.symm]
    exact returns_ok _
  cases hchild : s.child p last with
  | inl e =>
    rw [code_inl, if_pos (Or.inr (child_error hchild).1)]
    exact returns_ok _
  | inr i =>
    obtain ⟨j, -, he⟩ := Wf.edge_of_child hdir hchild
    have hi := (h.edge_child he).1
    have huse := h.dirBlock_inUse hdir
    rw [code_inr, if_neg (natCast_not_error i)]
    split
    · exact returns_ok _
    rw [h.inode_returns hdir.1, ok_bind, h.readBlock_inUse huse, ok_bind]
    refine Returns.bind ?_ fun name _ => ?_
    · next hpp =>
      obtain ⟨new, hnew, -, rfl⟩ := parent_of_getParentInum (not_not.1 hpp ▸ hpi')
      exact bufferString_returns (hp'.2 new hnew.mem)
    split
    · exact returns_ok _
    refine Returns.bind ?_ fun o _ => ?_
    · rw [renameEntry]
      split
      · exact returns_ok _
      · rw [h.inode_returns hi]
        exact returns_ok _
    · obtain ⟨u, b⟩ := o
      dsimp only
      rw [writeBlock_returns (h.lt_nblks huse.2.1)]
      exact returns_ok _

/-- A name in the directory that a slot carries, valid or not, stops `fs_rename`. -/
theorem Indexed.fsRename_eexist (h : Indexed s) {dstPath : Path} (hp : path.Small)
    (hp' : dstPath.Small) {p i k : ℕ} {old new : Name} (hpar : s.Parent path p old)
    (hpar' : s.Parent dstPath p new) (hi : s.child p old = .inr i) (hk : k < 32)
    (hn : (s.entry p k).named new = true) : s.fsRename c path dstPath = .ok (-EEXIST, s) := by
  have hdir := h.allocDir_of_parent hpar
  have hany : ((List.range 32).any fun j => ((s.dirBlock p).dirent j).named new) = true :=
    List.any_eq_true.2 ⟨k, List.mem_range.2 hk, hn⟩
  rw [fsRename, h.getParentInum_eq hp hpar, ok_bind]
  dsimp only
  rw [h.translatePathToInum_eq hp hpar, ok_bind, h.getParentInum_eq hp' hpar', ok_bind]
  dsimp only
  rw [hi, code_inr, if_neg (natCast_not_error i), if_neg (not_not.2 rfl), h.inode_returns hdir.1,
    ok_bind, h.readBlock_inUse (h.dirBlock_inUse hdir), ok_bind,
    bufferString_eq (hp'.2 new hpar'.mem) (dstPath.nul_notMem_of_mem_tokens hpar'.mem), ok_bind,
    ← dirBlock, if_pos hany]

/-- A name that resolves stops `fs_mknod`. -/
theorem Indexed.fsMknod_eexist (h : Indexed s) (hp : path.Small) {p i : ℕ} {last : Name}
    (hpar : s.Parent path p last) (hi : s.child p last = .inr i) (mode : UInt32) :
    s.fsMknod c path mode = .ok (-EEXIST, s) := by
  have hdir := h.allocDir_of_parent hpar
  have hi2 := child_ne_inr_zero h.toWf hdir hi
  rw [fsMknod, h.translatePathToInum_eq hp hpar, ok_bind, h.getParentInum_eq hp hpar, ok_bind]
  dsimp only
  rw [if_neg (natCast_not_error p), h.inode_returns hdir.1, ok_bind,
    if_neg (by simpa [isDir] using hdir.2), hi, code_inr, if_pos (by omega)]

theorem Indexed.fsChmod_returns (h : Indexed s) (hp : path.tokens.length ≤ 63) (mode : UInt32) :
    Returns (s.fsChmod c path mode) := by
  rw [fsChmod]
  refine (h.fsGetattr_returns hp).bind fun o ho => ?_
  rcases fsGetattr_ok ho with ⟨e, -, rfl⟩ | ⟨i, hr, rfl⟩
  · exact returns_ok _
  · dsimp only [fsSetSuperbockAttrs]
    rw [h.inode_returns (h.alloc_of_resolve hr)]
    exact returns_ok _

theorem Indexed.fsUtime_returns (h : Indexed s) (hp : path.tokens.length ≤ 63) (modtime : UInt32) :
    Returns (s.fsUtime path modtime) := by
  rw [fsUtime]
  refine (h.fsGetattr_returns hp).bind fun o ho => ?_
  rcases fsGetattr_ok ho with ⟨e, -, rfl⟩ | ⟨i, hr, rfl⟩
  · exact returns_ok _
  · dsimp only [fsSetSuperbockAttrs]
    rw [h.inode_returns (h.alloc_of_resolve hr)]
    exact returns_ok _

/-! ## Truncating and unlinking -/

theorem freeWords_returns {blocks : Block} {n k : ℕ}
    (hb : ∀ m, blocks.word m ≠ 0 → (cInt (blocks.word m)).toNat < g.blockBits) :
    Returns (freeWords blocks n k s) := by
  induction n generalizing k s with
  | zero => exact returns_ok _
  | succ n ih =>
    rw [freeWords]
    split
    · exact returns_ok _
    · next hk => exact (freeABlock_returns (hb k hk)).bind fun _ _ => ih

theorem freeTables_returns {blocks : Block} {n k : ℕ}
    (hb : ∀ m, blocks.word m ≠ 0 → (blocks.word m).toNat < g.nblks ∧
      (cInt (blocks.word m)).toNat < g.blockBits)
    (hb' : ∀ m m', blocks.word m ≠ 0 → (s.disk (blocks.word m).toNat).word m' ≠ 0 →
      (cInt ((s.disk (blocks.word m).toNat).word m')).toNat < g.blockBits) :
    Returns (freeTables blocks n k s) := by
  induction n generalizing k s with
  | zero => exact returns_ok _
  | succ n ih =>
    rw [freeTables]
    split
    · exact returns_ok _
    next hk =>
    split
    · rw [readBlock, if_pos (hb k hk).1, ok_bind]
      refine (freeWords_returns fun m' => hb' k m' hk).bind fun t ht => ?_
      refine (freeABlock_returns (hb k hk).2).bind fun u hu => ih ?_
      rw [(freed_of_freeABlock hu).disk, (freeWords_ok ht).disk]
      exact hb'
    · exact ih hb'

theorem truncDirect_returns {n k : ℕ} {ino : Inode} (h : Wf s) (hnk : n + k = 6) :
    Returns (truncDirect n k s ino) := by
  have hpos := h.startBlock_lt
  have hbits := h.numBlocks_le_bits
  induction n generalizing k ino with
  | zero => exact returns_ok _
  | succ n ih =>
    rw [truncDirect]
    split
    · exact returns_ok _
    · have hzero : cInt ((ino.setDirect k 0).directAt k) = 0 := by
        rw [Inode.directAt_setDirect _ _ _ (by omega), if_pos rfl, cInt_zero]
      dsimp only
      rw [hzero]
      refine (freeABlock_returns (by rw [Int.toNat_zero]; omega)).bind fun t ht => ?_
      have hpos := g.startBlock_pos
      obtain rfl := freeABlock_ok ht
      rw [if_neg (by omega)]
      exact ih (by omega)

/-- Every pointer of a file is a number below `num_blocks`. -/
theorem Indexed.pointer_lt (h : Indexed s) {i : ℕ} {σ : Slot} {w : UInt32}
    (hi : s.inodeMap i = true) (hf : s.isDir i = false) (hw : (s.inodes i).pointer s.disk σ = w)
    (h0 : w ≠ 0) : w.toNat < g.nblks ∧ (cInt w).toNat < g.blockBits := by
  subst hw
  have huse := h.blocks.pointer_inUse hi hf h0
  have := huse.2.1
  have := h.numBlocks_le_bits
  have := h.numBlocks_le_nblks
  rw [cInt_of_inUse h.blocks.numBlocks_lt huse, Int.toNat_natCast]
  omega

theorem Indexed.truncIndir1_returns (h : Indexed s) {i : ℕ} (hi : s.inodeMap i = true)
    (hf : s.isDir i = false) {ino : Inode} (h1 : ino.indir1 = (s.inodes i).indir1) :
    Returns (s.truncIndir1 ino) := by
  rw [truncIndir1, h1]
  split
  · next hge =>
    have hne : (s.inodes i).indir1 ≠ 0 := ne_zero_of_startBlock_le hge
    have hread : (s.inodes i).indir1.toNat < g.nblks := (h.pointer_lt (σ := .indir1) hi hf rfl hne).1
    rw [readBlock, if_pos hread, ok_bind]
    refine freeWords_returns fun m hm => ?_
    exact (h.pointer_lt (σ := .level1 m) hi hf (tableWord_of_ne_zero hne m) hm).2
  · exact returns_ok _

theorem Indexed.truncIndir2_returns (h : Indexed s) {i : ℕ} (hi : s.inodeMap i = true)
    (hf : s.isDir i = false) {t : FS g} (hdisk : t.disk = s.disk) {ino : Inode}
    (h2 : ino.indir2 = (s.inodes i).indir2) : Returns (t.truncIndir2 ino) := by
  rw [truncIndir2, h2]
  split
  · next hge =>
    have hne : (s.inodes i).indir2 ≠ 0 := ne_zero_of_startBlock_le hge
    have houter : ∀ m, tableWord s.disk (s.inodes i).indir2 m =
        (s.disk (s.inodes i).indir2.toNat).word m := tableWord_of_ne_zero hne
    have hread : (s.inodes i).indir2.toNat < g.nblks := (h.pointer_lt (σ := .indir2) hi hf rfl hne).1
    rw [readBlock, if_pos hread, ok_bind, hdisk]
    refine freeTables_returns (fun m hm => h.pointer_lt (σ := .outer m) hi hf (houter m) hm)
      fun m m' hm hm' => ?_
    rw [hdisk] at hm' ⊢
    refine (h.pointer_lt (σ := .inner m m') hi hf ?_ hm').2
    rw [Inode.pointer, houter m, tableWord_of_ne_zero hm]
  · exact returns_ok _

theorem Indexed.fsTruncate_returns (h : Indexed s) (hp : path.tokens.length ≤ 63) (len : ℤ) :
    Returns (s.fsTruncate path len) := by
  rw [fsTruncate]
  split
  · exact returns_ok _
  refine (h.fsGetattr_returns hp).bind fun o ho => ?_
  rcases fsGetattr_ok ho with ⟨e, -, rfl⟩ | ⟨i, hr, rfl⟩
  · exact returns_ok _
  have hi := h.alloc_of_resolve hr
  dsimp only [fsSetSuperbockAttrs]
  rw [h.inode_returns hi, ok_bind]
  split
  · exact returns_ok _
  next hd =>
  have hf : s.isDir i = false := Bool.of_not_eq_true hd
  refine (truncDirect_returns h.toWf rfl).bind fun o ht => ?_
  obtain ⟨t, ino⟩ := o
  obtain ⟨rfl, -, h1, h2, -⟩ := truncDirect_ok rfl ht
  dsimp only
  refine (h.truncIndir1_returns hi hf h1).bind fun u hu => ?_
  refine (h.truncIndir2_returns hi hf (truncIndir1_ok h.blocks hi hf h1 hu).disk h2).bind fun v _ => ?_
  exact returns_ok _

/-- The loop of `get_parent_inum` sees the inodes and blocks of directories only. -/
theorem Wf.parentLoop_congr (h : Wf s) (hino : ∀ d, s.AllocDir d → s'.inodes d = s.inodes d)
    (hs : ∀ d, s.AllocDir d → s'.dirBlock d = s.dirBlock d) {k d : ℕ} (hd : s.AllocDir d)
    (q : List Name) : s'.parentLoop k d q = s.parentLoop k d q := by
  induction q generalizing k d with
  | nil => rfl
  | cons n q ih =>
    cases q with
    | nil => rfl
    | cons m q =>
      have hinode : s'.inode d = s.inode d := by
        rw [inode, inode, Int.toNat_natCast, hino d hd]
      have hread : s'.readBlock ((s.inodes d).directAt 0).toNat =
          s.readBlock ((s.inodes d).directAt 0).toNat := by
        have hb := hs d hd
        rw [dirBlock, dirBlock, hino d hd] at hb
        rw [readBlock, readBlock, hb]
      rw [parentLoop, parentLoop, hinode]
      rw [inode]
      split
      swap
      · rfl
      rw [ok_bind, ok_bind, Int.toNat_natCast, hread, readBlock]
      split
      swap
      · rfl
      have hblock : s.disk ((s.inodes d).directAt 0).toNat = s.dirBlock d := rfl
      rw [ok_bind, ok_bind, hblock]
      cases hf : findEntry (s.dirBlock d) n with
      | none => rfl
      | some j =>
        have he := edge_of_findEntry hd hf
        dsimp only
        split
        · rfl
        · next hj =>
          refine ih ⟨(h.edge_child he).1, (h.edge_isDir he).symm.trans ?_⟩
          simpa [entry, dirBlock] using hj

/-- The entries that the loop of `fs_unlink` looks up are valid. -/
theorem unlinkLoop_returns {block : Block} {last : Name} {n k : ℕ}
    (h : ∀ j < 32, (block.dirent j).valid = true → Returns (s.inode (block.dirent j).inode.toNat) ∧
      (block.dirent j).inode.toNat < g.inodeBits) (hnk : n + k = 32) :
    Returns (s.unlinkLoop block last n k) := by
  induction n generalizing k with
  | zero => exact returns_ok _
  | succ n ih =>
    rw [unlinkLoop]
    split
    · next hvn =>
      rw [Bool.and_eq_true] at hvn
      obtain ⟨hino, hbit⟩ := h k (by omega) hvn.1
      split
      · exact returns_ok _
      · refine hino.bind fun ino _ => ?_
        rw [inodeBit, if_pos hbit, ok_bind]
        split
        · exact returns_ok _
        · exact ih (by omega)
    · exact ih (by omega)

theorem Indexed.fsUnlink_returns (h : Indexed s) (hp : path.Small) :
    Returns (s.fsUnlink c path) := by
  rw [fsUnlink]
  refine (h.fsTruncate_returns hp.1 0).bind fun o ht => ?_
  obtain ⟨r, t⟩ := o
  dsimp only
  cases h.fsTruncate_ok ht with
  | badLength hlen => exact absurd rfl hlen
  | badPath hr =>
    rw [if_pos (error_neg (resolve_error hr))]
    exact returns_ok _
  | isDir => exact returns_ok _
  | @truncated i _ _ hr hd htr =>
    have hinodes : ∀ d, s.AllocDir d → t.inodes d = s.inodes d := fun d hd' => htr.inodes d (by
      rintro rfl
      exact Bool.false_ne_true (hd.symm.trans hd'.2))
    have hdirs : ∀ d, s.AllocDir d → t.dirBlock d = s.dirBlock d :=
      fun d => htr.dirBlock h.toWf hd
    rw [if_neg (lt_irrefl _)]
    have hparent : t.getParentInum path = s.getParentInum path := by
      rw [getParentInum, getParentInum]
      simp only [h.parentLoop_congr hinodes hdirs h.allocDir_one]
    rw [hparent]
    refine (h.getParentInum_returns hp).bind fun o hpi => ?_
    obtain ⟨pi, buf⟩ := o
    dsimp only
    obtain ⟨ci, hci⟩ := h.translatePathToInum_returns hp.1
    have hcode := translatePathToInum_ok hci
    rcases h.parent_cases hci hpi with ⟨hnil, -⟩ | ⟨e, he, -, hr', -, -⟩ |
      ⟨p, last, hpar, hdir, rfl, -, -, -⟩
    · -- the root is a directory, and the path leads to a file
      obtain rfl := Sum.inr.inj ((resolve_of_nil hnil).symm.trans hr)
      exact absurd (hd.symm.trans h.root_isDir) Bool.false_ne_true
    · exact absurd (hr.symm.trans hr') (by simp)
    have huse := h.dirBlock_inUse hdir
    have hbits := h.bits_ge
    have hinode : ∀ k, s.inodeMap k = true → t.inode k = .ok (t.inodes k) := fun k hk => by
      have := h.inode_lt k hk
      rw [inode, if_pos ⟨by omega, by omega⟩, Int.toNat_natCast]
    rw [getLastOfSplit, Path.split_returns hp.1, ok_bind, hpar.last, ok_bind, hinode p hdir.1, ok_bind,
      hinodes p hdir, readBlock, if_pos (h.lt_nblks huse.2.1), ok_bind]
    have hblock : t.disk ((s.inodes p).directAt 0).toNat = s.dirBlock p := htr.disk _ huse.1
    rw [hblock]
    refine Returns.bind (unlinkLoop_returns (fun k hk hv => ?_) rfl) fun o ho => ?_
    · have hk := (h.edge_child ⟨hdir, hk, hv, rfl⟩).1
      have := h.lt_of_alloc hk
      exact ⟨⟨_, hinode _ hk⟩, by rw [entry] at this; omega⟩
    · cases o with
      | isDir => exact returns_ok _
      | missing => exact returns_ok _
      | found j k ino =>
        dsimp only
        rw [writeBlock_returns (h.lt_nblks huse.2.1)]
        exact returns_ok _

end FS

end Fsx600
