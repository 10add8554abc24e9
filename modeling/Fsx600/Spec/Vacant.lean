import Fsx600.Spec.Preservation
import Fsx600.Spec.Truncation
import Fsx600.Spec.Fresh

/-!
# States in which no file holds a block

As long as nothing is written, the blocks in use are those of directories.  Then
`fs_truncate` and `fs_unlink` have nothing to free, and the calls that change names and
attributes keep the tree whatever their order.
-/

namespace Fsx600

open Checked Function

namespace FS

variable {g : Layout} {s s' : FS g} {c : Context} {path : Path} {r : ℤ}

/-- A well-formed state in which every block that is held is held by a directory. -/
structure Vacant (s : FS g) : Prop extends Wf s where
  filesEmpty : ∀ i σ b, s.owner (i, σ) = some b → s.isDir i = true

theorem Vacant.refers_eq_none (h : Vacant s) {i : ℕ} (hi : s.inodeMap i = true)
    (hf : s.isDir i = false) (σ : Slot) : s.refers i σ = none := by
  cases hr : s.refers i σ with
  | none => rfl
  | some b =>
    exact absurd (hf.symm.trans (h.filesEmpty i σ b (owner_eq_some.2 ⟨hi, hr⟩))) Bool.false_ne_true

/-- A file that references nothing is truncated without freeing anything. -/
theorem noTables_of_refers {i : ℕ} (hf : s.isDir i = false) (h : ∀ σ, s.refers i σ = none) :
    s.NoTables i := by
  have hzero : ∀ σ, (s.inodes i).pointer s.disk σ = 0 := fun σ => by
    by_contra hne
    have hr := (refers_eq_some_of_file hf).2 ⟨hne, rfl⟩
    exact absurd ((h σ).symm.trans hr) (by simp)
  exact ⟨hzero _, hzero _⟩

theorem Vacant.writeInodeMap (h : Vacant s) : Vacant s.writeInodeMap := by
  refine ⟨h.toWf.writeInodeMap, fun i σ b hb => h.filesEmpty i σ b ?_⟩
  rwa [h.owner_writeInodeMap] at hb

theorem Vacant.created (h : Vacant s) {mode : UInt32} {p j n : ℕ} {name : Name} {fresh : Option ℕ}
    (hc : Created c mode p j n name fresh s s') : Vacant s' := by
  refine ⟨h.toWf.created hc, fun i σ b hb => ?_⟩
  rcases hc.owner_cases h.toWf hb with hb | ⟨hx, hfresh⟩
  · have hi := (owner_eq_some.1 hb).1
    rw [hc.isDir_of_ne (hc.ne_of_alloc hi)]
    exact h.filesEmpty i σ b hb
  · obtain ⟨rfl, rfl⟩ := Prod.mk.inj hx
    rw [hc.isDir_self, ← hc.fresh_isSome, hfresh]
    rfl

theorem Vacant.removed (h : Vacant s) {p j i : ℕ} {e : Dirent} (hr : Removed p j i e s s') :
    Vacant s' := by
  refine ⟨h.toWf.removed hr, fun k σ b hb => ?_⟩
  obtain ⟨hb, hki⟩ := hr.owner_of h.toWf hb
  rw [hr.isDir_of_ne hki]
  exact h.filesEmpty k σ b hb

theorem Vacant.renamed (h : Vacant s) {p j i : ℕ} {new : Name} (hr : Renamed c p j i new s s') :
    Vacant s' := by
  refine ⟨h.toWf.renamed hr, fun k σ b hb => ?_⟩
  have hmode : (s'.inodes k).mode = (s.inodes k).mode := by
    rw [hr.inodes]
    exact field_update Inode.mode (by rfl) k
  rw [isDir, hmode]
  exact h.filesEmpty k σ b (hr.owner h.toWf ▸ hb)

theorem Vacant.truncated (h : Vacant s) {i : ℕ} (hi : s.inodeMap i = true) (hf : s.isDir i = false)
    (ht : Truncated i s s') : Vacant s' := by
  have hno := noTables_of_refers hf (h.refers_eq_none hi hf)
  refine ⟨h.toWf.truncated hi hf ht hno, fun k σ b hb => ?_⟩
  rw [ht.isDir]
  exact h.filesEmpty k σ b (ht.owner_of h.toWf hi hf hb)

theorem Vacant.touch (h : Vacant s) {i : ℕ} {ino : Inode} (hm : sIsDir ino.mode = s.isDir i)
    (hd : ino.direct = (s.inodes i).direct) (h1 : ino.indir1 = (s.inodes i).indir1)
    (h2 : ino.indir2 = (s.inodes i).indir2) : Vacant (s.setInode i ino).writeAllInodes := by
  refine ⟨h.toWf.touch hm hd h1 h2, fun k σ b hb => ?_⟩
  rw [h.blocks.owner_touch hm hd h1 h2] at hb
  exact (isDir_touch hm k).trans (h.filesEmpty k σ b hb)

end FS

theorem Mkfs.vacant_fresh {n : ℕ} (h : Formattable n) (t : UInt32) : (fresh h t).Vacant := by
  refine ⟨wf_fresh h t, fun i σ b hb => ?_⟩
  obtain ⟨rfl, rfl⟩ := Prod.mk.inj ((owner_fresh h t).1 hb).1
  exact isDir_fresh h t 1

end Fsx600
