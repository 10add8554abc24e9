import Fsx600.Spec.Naming
import Fsx600.Spec.Returns
import Fsx600.Properties.Flushing
import Fsx600.Properties.Leaks

/-!
# Creating and removing again

A call of `fs_mknod` or `fs_mkdir` that returns 0, followed at once by the call that removes
what it made: the second call returns 0 as well, the bitmaps are as they were, and every path
leads where it led.  What is left behind is a slot of the parent that is still not valid, the
inode that was taken, and what is in the block of a directory that is gone.

`fs_unlink` finds its entry by name and `fs_rmdir` by inode number; in a well-formed state
both find the one that was just made (`Created.undone`).
-/

namespace Fsx600

open Checked Function

namespace FS

variable {g : Layout} {s t s' : FS g} {c : Context} {path : Path} {p j n : ℕ} {last : Name}
  {fresh : Option ℕ}

/-- Between `s` and `t` the inode `n` and, for a directory, the block `fresh` were taken for a
path with the parent `p`, and `s'` is `s` again but for these, for the block of the parent and
for the inode region. -/
structure Undone (path : Path) (p n : ℕ) (fresh : Option ℕ) (s t s' : FS g) : Prop where
  parent : ∃ last, s.Parent path p last
  inode_free : s.inodeMap n = false
  inode_taken : t.inodeMap = update s.inodeMap n true
  fresh_free : ∀ b ∈ fresh, s.Free b
  fresh_taken : ∀ b, t.blockMap b = (s.blockMap b || fresh == some b)
  inodeMap : s'.inodeMap = s.inodeMap
  blockMap : s'.blockMap = s.blockMap
  inodes : ∀ k, k ≠ n → s'.inodes k = s.inodes k
  disk : ∀ x, x < 1 + g.inodeMapSz + g.blockMapSz ∨ g.startBlock ≤ x →
    x ≠ ((s.inodes p).directAt 0).toNat → fresh ≠ some x → s'.disk x = s.disk x
  lookup : ∀ q : Path, s'.translatePathToInum q = s.translatePathToInum q

section Created

variable {mode : UInt32} {e : Dirent} {p' j' : ℕ}

/-- What is removed is what was created. -/
theorem Created.removed_eq (hwf : Wf s) (h : Created c mode p j n last fresh s t)
    (hr : Removed p' j' n e t s') : p' = p ∧ j' = j :=
  (hwf.created h).tree.parent_unique hr.edge ((h.edge_iff hwf p j n).2 (Or.inr ⟨rfl, rfl, rfl⟩))

/-- The slot that was filled is cleared, and the others have not changed. -/
theorem Created.entry_of_removed (hwf : Wf s) (h : Created c mode p j n last fresh s t)
    (hr : Removed p j n e t s') {d k : ℕ} (hd : s.AllocDir d) :
    s'.entry d k = if d = p ∧ k = j then e else s.entry d k := by
  have hdt : t.AllocDir d := (h.allocDir_iff d).2 (Or.inl hd)
  rw [hr.entry (hwf.created h) hdt (h.ne_of_alloc hd.1)]
  split
  · rfl
  · next hne => rw [h.entry hwf hd, if_neg hne]

/-- Lookups do not tell a cleared slot from one that was never filled. -/
theorem Created.resolve_of_removed (hwf : Wf s) (h : Created c mode p j n last fresh s t)
    (hr : Removed p j n e t s') (q : List Name) : s'.resolve 1 q = s.resolve 1 q := by
  refine hwf.resolve_congr_of_entry (fun d hd u => findEntry_congr fun k _ => ?_)
    (fun d k i he => ?_) q fun _ => hwf.allocDir_one
  · show ((s'.entry d k).named u && (s'.entry d k).valid) = ((s.entry d k).named u && (s.entry d k).valid)
    rw [h.entry_of_removed hwf hr hd]
    split
    · next hpj => rw [hpj.1, hpj.2, hr.entry_valid, h.slot_free, Bool.and_false, Bool.and_false]
    · rfl
  · rw [h.entry_of_removed hwf hr he.1, if_neg]
    rintro ⟨rfl, rfl⟩
    exact Bool.false_ne_true (h.slot_free.symm.trans he.2.2.1)

/-- The data region but for the block of the parent and the block that was taken. -/
theorem Created.disk_of_removed (h : Created c mode p j n last fresh s t)
    (hr : Removed p j n e t s') {x : ℕ} (hx : g.startBlock ≤ x)
    (hp : x ≠ ((s.inodes p).directAt 0).toNat) (hf : fresh ≠ some x) : s'.disk x = s.disk x := by
  have hino : t.inodes p = s.inodes p := by
    rw [h.inodes, update_of_ne (h.ne_of_alloc h.parent.1)]
  rw [hr.disk x hx, hino, if_neg hp, h.disk x hx, if_neg hp, if_neg hf]

/-- A removal that frees the block that was taken undoes the creation. -/
theorem Created.undone (hs : Indexed s) (hsync : s.Synced) (hpar : s.Parent path p last)
    (h : Created c mode p j n last fresh s t) (hr : Removed p' j' n e t s')
    (hmap : s'.blockMap = s.blockMap) (hs' : Indexed s')
    (hcreate : ∃ a, s.Step a t) (hremove : ∃ a, t.Step a s') : Undone path p n fresh s t s' := by
  have hwf := hs.toWf
  obtain ⟨rfl, rfl⟩ := h.removed_eq hwf hr
  obtain ⟨a, ha⟩ := hcreate
  obtain ⟨b, hb⟩ := hremove
  obtain ⟨hsync₁, h0⟩ := hsync.cleanStep ((h.clean hwf).cleanStep ha)
  obtain ⟨hsync₂, h0'⟩ := hsync₁.cleanStep ((hr.clean (hwf.created h)).cleanStep hb)
  have himap : s'.inodeMap = s.inodeMap := by
    rw [hr.inodeMap, h.inodeMap, update_idem, ← h.inode_free, update_eq_self]
  refine ⟨⟨last, hpar⟩, h.inode_free, h.inodeMap, h.fresh_free, h.blockMap, himap, hmap, fun k hk => ?_,
    fun x hx hp hf => ?_, fun q => ?_⟩
  · rw [hr.inodes k hk, h.inodes, update_of_ne hk]
  · rcases hx with hx | hx
    · exact hsync.disk_congr hsync₂ (h0'.trans h0) himap hmap hx
    · exact h.disk_of_removed hr hx hp hf
  · exact hs.translate_congr hs' rfl (h.resolve_of_removed hwf hr q.tokens)

end Created

/-- **A file** that `fs_mknod` has just made is unlinked again. -/
theorem Created.unlinked (hs : Indexed s) (hsync : s.Synced) (hp : path.Small)
    (hpar : s.Parent path p last) {mode : UInt32} (hmode : sIsDir mode = false)
    (h : Created c mode p j n last fresh s t) (ht : Indexed t) (hcreate : ∃ a, s.Step a t)
    (c' : Context) : ∃ s', t.fsUnlink c' path = .ok (0, s') ∧ Undone path p n none s t s' := by
  obtain rfl : fresh = none := by
    rw [← Option.not_isSome_iff_eq_none, h.fresh_isSome, hmode]
    exact Bool.false_ne_true
  have hres := h.resolve hs.toWf hpar
  have hfile : t.isDir n = false := h.isDir_self.trans hmode
  have hempty : (t.inodes n).Empty := by
    rw [h.inodes, update_self]
    exact newInode_empty mode _
  obtain ⟨⟨r, s'⟩, hr⟩ := ht.fsUnlink_returns (c := c') hp
  have hs' := ht.of_unlinkResult (fsUnlink_ok ht.toWf hr)
  cases fsUnlink_ok ht.toWf hr with
  | badPath herr => exact absurd (hres.symm.trans herr) (by simp)
  | isDir hi hd =>
    obtain rfl := Sum.inr.inj (hres.symm.trans hi)
    exact absurd (hfile.symm.trans hd) Bool.false_ne_true
  | removed hpar' hi hd hrem =>
    obtain rfl := Sum.inr.inj (hres.symm.trans (hpar'.resolve.trans hi))
    refine ⟨s', hr, h.undone hs hsync hpar hrem (funext fun b => ?_) hs' hcreate
      ⟨.unlink path, c', 0, hr⟩⟩
    -- the file holds no block
    rcases hrem.blockMap b with hb | ⟨-, σ, hσ⟩
    · rw [hb, h.blockMap, beq_eq_false_iff_ne.2 (by simp), Bool.or_false]
    · rw [owner_of_empty hfile hempty] at hσ
      exact absurd hσ (by simp)

/-- **A directory** that `fs_mkdir` has just made is removed again. -/
theorem Created.removedDir (hs : Indexed s) (hsync : s.Synced) (hp : path.Proper)
    (hpar : s.Parent path p last) {mode : UInt32} (hmode : sIsDir mode = true)
    (h : Created c mode p j n last fresh s t) (ht : Indexed t) (hcreate : ∃ a, s.Step a t) :
    ∃ b s', t.fsRmdir path = .ok (0, s') ∧ Undone path p n (some b) s t s' := by
  have hwf := hs.toWf
  obtain ⟨b, rfl⟩ := Option.isSome_iff_exists.mp (h.fresh_isSome.trans hmode)
  have hfree := h.fresh_free b rfl
  have hres := h.resolve hwf hpar
  have hdir : t.isDir n = true := h.isDir_self.trans hmode
  have hblock : ((t.inodes n).directAt 0).toNat = b := by
    rw [h.inodes, update_self, createdInode, Inode.directAt_setDirect _ _ _ (by omega), if_pos rfl,
      toNat_ofNat_of_lt hwf.blocks.numBlocks_lt hfree.2.1]
  obtain ⟨⟨r, s'⟩, hr⟩ := ht.fsRmdir_returns hp.small (Or.inl hp.ne_nil)
  have hs' := ht.of_rmdirResult (fsRmdir_ok ht.toWf hr)
  cases fsRmdir_ok ht.toWf hr with
  | badPath herr => exact absurd (hres.symm.trans herr) (by simp)
  | notDir hi hd =>
    obtain rfl := Sum.inr.inj (hres.symm.trans hi)
    exact absurd (hd.symm.trans hdir) Bool.false_ne_true
  | notEmpty hi _ _ hv =>
    obtain rfl := Sum.inr.inj (hres.symm.trans hi)
    rw [h.entry_self hwf hmode] at hv
    exact absurd hv Bool.false_ne_true
  | removed hpar' hi hd hrem hmap =>
    obtain rfl := Sum.inr.inj (hres.symm.trans (hpar'.resolve.trans hi))
    refine ⟨b, s', hr, h.undone hs hsync hpar hrem (funext fun x => ?_) hs' hcreate
      ⟨.rmdir path, c, 0, hr⟩⟩
    rw [hmap, hblock, update_apply, h.blockMap]
    split
    · next hx => rw [hx, hfree.2.2]
    · next hx => rw [beq_eq_false_iff_ne.2 (by simpa using Ne.symm hx), Bool.or_false]

/-- **Creating and removing again.**  A file that is made and unlinked, and a directory that is
made and removed, leave the bitmaps, the other inodes and all lookups as they were. -/
theorem created_undone (s : FS g) (h : WellFormed s) (hsync : s.Synced) (path : Path)
    (hp : path.Proper) (c c' : Context) (mode : UInt32) :
    (fileType mode = S_IFREG → ∀ t, s.fsMknod c path mode = .ok (0, t) →
      ∃ s', t.fsUnlink c' path = .ok (0, s') ∧ ∃ p n, Undone path p n none s t s') ∧
    (fileType mode = 0 → ∀ t, s.fsMkdir c path mode = .ok (0, t) →
      ∃ s', t.fsRmdir path = .ok (0, s') ∧ ∃ p n b, Undone path p n (some b) s t s') := by
  have hs := h.indexed
  refine ⟨fun hmode t ht => ?_, fun hmode t ht => ?_⟩
  · cases fsMknod_ok hs.toWf ht with
    | badPath he => exact absurd he (by decide)
    | created hpar hc =>
      obtain ⟨s', hr, hu⟩ := hc.unlinked hs hsync hp.small hpar (sIsDir_of_regular hmode)
        (hs.mknod ht) ⟨.mknod path mode, c, 0, ht⟩ c'
      exact ⟨s', hr, _, _, hu⟩
  · cases fsMkdir_ok hs.toWf ht with
    | badPath he => exact absurd he (by decide)
    | created hpar hc =>
      obtain ⟨b, s', hr, hu⟩ := hc.removedDir hs hsync hp hpar (sIsDir_or_of_permissions hmode)
        (hs.mknod ht) ⟨.mkdir path mode, c, 0, ht⟩
      exact ⟨s', hr, _, _, b, hu⟩

/-- The file `/a` and the directory `/a` on a new image, by one user and then another. -/
theorem created_undone_fresh : (∃ t s', (Mkfs.fresh Mkfs.formattable_256 0).fsMknod ⟨1000, 1000, 0⟩
      pathA 0x81A4 = .ok (0, t) ∧ t.fsUnlink ⟨0, 0, 1⟩ pathA = .ok (0, s') ∧
      ∃ p n, Undone pathA p n none (Mkfs.fresh Mkfs.formattable_256 0) t s') ∧
    ∃ t s', (Mkfs.fresh Mkfs.formattable_256 0).fsMkdir ⟨1000, 1000, 0⟩ pathA 0x1ED = .ok (0, t) ∧
      t.fsRmdir pathA = .ok (0, s') ∧
      ∃ p n b, Undone pathA p n (some b) (Mkfs.fresh Mkfs.formattable_256 0) t s' := by
  have hfile : returned ((Mkfs.fresh Mkfs.formattable_256 0).fsMknod ⟨1000, 1000, 0⟩ pathA 0x81A4) =
      some 0 := by
    decide +kernel
  have hdir : returned ((Mkfs.fresh Mkfs.formattable_256 0).fsMkdir ⟨1000, 1000, 0⟩ pathA 0x1ED) =
      some 0 := by
    decide +kernel
  obtain ⟨t, ht⟩ := exists_of_returned hfile
  obtain ⟨u, hu⟩ := exists_of_returned hdir
  have hp : pathA.Proper := by decide +kernel
  have hboth := fun mode => created_undone _ (Mkfs.wellFormed_fresh Mkfs.formattable_256 0 (by decide))
    (Mkfs.synced_fresh _ 0) pathA hp ⟨1000, 1000, 0⟩ ⟨0, 0, 1⟩ mode
  obtain ⟨s', hs', hundone⟩ := (hboth 0x81A4).1 (by decide) t ht
  obtain ⟨u', hu', hundone'⟩ := (hboth 0x1ED).2 (by decide) u hu
  exact ⟨⟨t, s', ht, hs', hundone⟩, u, u', hu, hu', hundone'⟩

end FS

end Fsx600
