import Fsx600.Properties.SafeRuns

/-!
# Failed operations on names change nothing

`fs_mknod` takes an inode bit before it knows whether there is a slot and a block, and
gives it back on two exits; `fs_unlink` truncates before it looks at the directory.  Yet
from a well-formed synchronised state a call that returns an error leaves memory and disk
as they were: the bit is given back and the flush writes what was there, and after the
truncation of a file nothing can go wrong any more.
-/

namespace Fsx600

open Checked

/-- The calls of this module: all but `fs_write`. -/
def Call.NotWrite : Call → Prop
  | .write _ _ _ _ => False
  | _ => True

namespace FS

variable {g : Layout} {s s' : FS g} {c : Context} {path : Path} {r : ℤ}

/-- Memory and disk are as they were. -/
structure Unchanged (s s' : FS g) : Prop where
  inodeMap : s'.inodeMap = s.inodeMap
  blockMap : s'.blockMap = s.blockMap
  inodes : s'.inodes = s.inodes
  disk : s'.disk = s.disk

theorem Unchanged.refl (s : FS g) : Unchanged s s := ⟨rfl, rfl, rfl, rfl⟩

theorem Synced.unchanged_writeInodeMap (h : s.Synced) : Unchanged s s.writeInodeMap :=
  ⟨rfl, rfl, rfl, h.inodeMap.disk_writeInodeMap⟩

theorem MknodResult.unchanged (hs : s.Synced) {mode : UInt32} (h : MknodResult c s path mode r s')
    (hr : r < 0) : Unchanged s s' := by
  cases h with
  | badPath => exact .refl s
  | «exists» => exact .refl s
  | noInode => exact .refl s
  | noSlot => exact hs.unchanged_writeInodeMap
  | noBlock => exact hs.unchanged_writeInodeMap
  | created => exact absurd hr (lt_irrefl 0)

theorem RmdirResult.unchanged (h : RmdirResult s path r s') (hr : r < 0) : Unchanged s s' := by
  cases h with
  | badPath => exact .refl s
  | notDir => exact .refl s
  | notEmpty => exact .refl s
  | removed => exact absurd hr (lt_irrefl 0)

theorem UnlinkResult.unchanged (h : UnlinkResult s path r s') (hr : r < 0) : Unchanged s s' := by
  cases h with
  | badPath => exact .refl s
  | isDir => exact .refl s
  | removed => exact absurd hr (lt_irrefl 0)

theorem RenameResult.unchanged {dstPath : Path} (h : RenameResult c s path dstPath r s') (hr : r < 0) :
    Unchanged s s' := by
  cases h with
  | badPath => exact .refl s
  | otherDir => exact .refl s
  | taken => exact .refl s
  | renamed => exact absurd hr (lt_irrefl 0)

theorem TruncateResult.unchanged {len : ℤ} (h : TruncateResult s path len r s') (hr : r < 0) :
    Unchanged s s' := by
  cases h with
  | badLength => exact .refl s
  | badPath => exact .refl s
  | isDir => exact .refl s
  | truncated => exact absurd hr (lt_irrefl 0)

theorem TouchResult.unchanged {f : Inode → Inode} (h : TouchResult f s path r s') (hr : r < 0) :
    Unchanged s s' := by
  cases h with
  | badPath => exact .refl s
  | touched => exact absurd hr (lt_irrefl 0)

/-- **A failed call changes nothing.** -/
theorem unchanged_of_failed_call (c : Context) (s : FS g) (h : WellFormed s) (hs : s.Synced) (a : Call)
    (ha : a.NotWrite) (r : ℤ) (s' : FS g) (hrun : s.exec c a = .ok (r, s')) (hr : r < 0) :
    Unchanged s s' := by
  cases a with
  | mknod path mode => exact (fsMknod_ok h.toWf hrun).unchanged hs hr
  | mkdir path mode => exact (fsMkdir_ok h.toWf hrun).unchanged hs hr
  | unlink path => exact (fsUnlink_ok h.toWf hrun).unchanged hr
  | rmdir path => exact (fsRmdir_ok h.toWf hrun).unchanged hr
  | rename srcPath dstPath => exact (fsRename_ok h.toWf hrun).unchanged hr
  | chmod path mode => exact (fsChmod_ok hrun).unchanged hr
  | utime path modtime => exact (fsUtime_ok hrun).unchanged hr
  | truncate path len => exact (h.fsTruncate_ok hrun).unchanged hr
  | write => exact ha.elim

/-- A path with one letter. -/
def letterPath (k : Fin 32) : Path := ⟨[47, 65 + UInt8.ofNat k], by revert k; decide⟩

/-- Files that fill the root directory. -/
def letterCalls : List (Context × Call) :=
  (List.finRange 32).map fun k => (⟨1000, 1000, 0⟩, .mknod (letterPath k) 0x81A4)

/-- `mkdir /a` in a directory that is full: an inode is taken, and given back. -/
theorem unchanged_of_failed_mkdir : ∃ s s', (Mkfs.fresh Mkfs.formattable_256 0).runCalls letterCalls =
    .ok (List.replicate 32 0, s) ∧
    s.exec ⟨1000, 1000, 1⟩ (.mkdir pathA 0x1ED) = .ok (-ENOSPC, s') ∧ Unchanged s s' := by
  have hend : ((Mkfs.fresh Mkfs.formattable_256 0).runCalls letterCalls).map (fun x =>
      (x.1, returned (x.2.exec ⟨1000, 1000, 1⟩ (.mkdir pathA 0x1ED)))) =
      .ok (List.replicate 32 0, some (-ENOSPC)) := by
    decide +kernel
  cases hrun : (Mkfs.fresh Mkfs.formattable_256 0).runCalls letterCalls with
  | error e => simp [hrun, Except.map] at hend
  | ok x =>
    obtain ⟨codes, s⟩ := x
    rw [hrun] at hend
    obtain ⟨hcodes, hret⟩ := Prod.mk.inj (Except.ok.inj hend)
    dsimp only at hcodes hret
    subst hcodes
    obtain ⟨s', hs'⟩ := exists_of_returned hret
    have hsafe : (Mkfs.fresh Mkfs.formattable_256 0).AllSafe letterCalls := AllMeet.of_forall fun x hx u => by
      obtain ⟨k, -, rfl⟩ := List.mem_map.1 hx
      exact trivial
    have hsteady := (steady_fresh Mkfs.formattable_256 0).run hsafe hrun
    exact ⟨s, s', rfl, hs', unchanged_of_failed_call _ s ⟨hsteady.indexed.toWf, by decide⟩ hsteady.synced
      (.mkdir _ _) trivial _ _ hs' (by decide)⟩

end FS

end Fsx600
