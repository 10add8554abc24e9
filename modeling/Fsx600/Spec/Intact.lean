import Fsx600.Spec.Storing

/-!
# Files that are left alone

`Intact` says that a file has kept its size and its contents.  It holds of every change to
another file, and of every change to names and times.
-/

namespace Fsx600

open Function

namespace FS

variable {g : Layout} {s s' t : FS g} {c : Context} {q : ℕ}

/-- The size of the file `q` and every byte of its contents are as they were. -/
structure Intact (q : ℕ) (s s' : FS g) : Prop where
  size : (s'.inodes q).size = (s.inodes q).size
  byteAt : ∀ x, s'.byteAt q x = s.byteAt q x

theorem Intact.refl (q : ℕ) (s : FS g) : Intact q s s := ⟨rfl, fun _ => rfl⟩

theorem Intact.trans (h : Intact q s t) (h' : Intact q t s') : Intact q s s' :=
  ⟨h'.size.trans h.size, fun x => (h'.byteAt x).trans (h.byteAt x)⟩

/-- A file is intact if its inode is, but for times, and the blocks it references. -/
theorem intact_of_disk (hq : s.inodeMap q = true) (hf : s.isDir q = false)
    (hsize : (s'.inodes q).size = (s.inodes q).size)
    (hpointers : (s'.inodes q).direct = (s.inodes q).direct ∧
      (s'.inodes q).indir1 = (s.inodes q).indir1 ∧ (s'.inodes q).indir2 = (s.inodes q).indir2)
    (hdisk : ∀ σ b, s.owner (q, σ) = some b → s'.disk b = s.disk b) : Intact q s s' :=
  ⟨hsize, byteAt_congr hf hpointers.1 hpointers.2.1 hpointers.2.2 fun σ b hb =>
    hdisk σ b (owner_eq_some.2 ⟨hq, hb⟩)⟩

section Changes

variable (hwf : Wf s) (hq : s.inodeMap q = true) (hf : s.isDir q = false)
include hwf hq hf

theorem intact_writeInodeMap : Intact q s s.writeInodeMap :=
  intact_of_disk hq hf rfl ⟨rfl, rfl, rfl⟩ fun _ _ hb => disk_writeInodeMap s (hwf.sound.used hb).1

theorem Created.intact {mode : UInt32} {p j n : ℕ} {name : Name} {fresh : Option ℕ}
    (h : Created c mode p j n name fresh s s') : Intact q s s' := by
  have hino : s'.inodes q = s.inodes q := by rw [h.inodes, update_of_ne (h.ne_of_alloc hq)]
  exact intact_of_disk hq hf (by rw [hino]) (by simp [hino]) fun _ _ hb => h.disk_of_file hwf hf hb

theorem Removed.intact {p j i : ℕ} {e : Dirent} (h : Removed p j i e s s') (hqi : q ≠ i) :
    Intact q s s' := by
  have hino := h.inodes q hqi
  exact intact_of_disk hq hf (by rw [hino]) (by simp [hino]) fun _ _ hb => h.disk_of_file hwf hf hb

theorem Renamed.intact {p j i : ℕ} {new : Name} (h : Renamed c p j i new s s') : Intact q s s' := by
  refine intact_of_disk hq hf ?_ (h.pointers q) fun _ _ hb => h.disk_of_file hwf hf hb
  rw [h.inodes]
  exact field_update Inode.size (by rfl) q

end Changes

section Files

variable (hs : s.SoundBlocks) (hq : s.inodeMap q = true) (hf : s.isDir q = false)
include hs hq hf

theorem Truncated.intact {i : ℕ} (h : Truncated i s s') (hqi : q ≠ i) : Intact q s s' := by
  have hino := h.inodes q hqi
  exact intact_of_disk hq hf (by rw [hino]) (by simp [hino]) fun _ _ hb =>
    h.disk _ (hs.sound.used hb).1

theorem Stored.intact {i n : ℕ} {σ : Slot} {p : UInt32} {b : Block} (h : Stored i σ p b n s s')
    (hqi : q ≠ i) : Intact q s s' := by
  have hino := h.inodes q hqi
  exact intact_of_disk hq hf (by rw [hino]) (by simp [hino]) fun _ _ hb => h.disk_of_owner hs hb hqi

/-- A new time changes no pointer. -/
theorem pointer_touch (i : ℕ) (now : UInt32) :
    (s.setInode i { s.inodes i with mtime := now }).writeAllInodes.pointer q = s.pointer q :=
  Inode.pointer_congr (field_update Inode.direct (by rfl) q) (field_update Inode.indir1 (by rfl) q)
    (field_update Inode.indir2 (by rfl) q) fun σ _ h0 =>
      disk_writeAllInodes _ (hs.sound.used (owner_of_pointer hq hf h0)).1

theorem intact_touch (i : ℕ) (now : UInt32) :
    Intact q s (s.setInode i { s.inodes i with mtime := now }).writeAllInodes := by
  refine intact_of_disk hq hf ?_ ⟨?_, ?_, ?_⟩ fun _ _ hb => disk_writeAllInodes _ (hs.sound.used hb).1
  · exact field_update Inode.size (by rfl) q
  · exact field_update Inode.direct (by rfl) q
  · exact field_update Inode.indir1 (by rfl) q
  · exact field_update Inode.indir2 (by rfl) q

end Files

end FS

end Fsx600
