import Fsx600.Spec.Vacant
import Fsx600.Model.Calls

/-!
# File types

The type of a file is stored twice, in the mode of its inode and in the `isDir` bit of its
entry.  `fs_mknod` takes both from `mode` without the test for `S_ISREG` that its comment
promises, and `fs_mkdir` and `fs_chmod` put the type in by `|` without masking what `mode`
brings along.

* `typesAgree_of_run`: as long as no creation brings a type other than a directory's or a
  regular file's, and no `fs_chmod` brings type bits that the inode does not have, the two
  agree and no type ever changes;
* `not_typesAgree_of_run`: with any mode, neither holds.
-/

namespace Fsx600

open Checked Function GuardedRun Mkfs

/-- A directory or a regular file. -/
def Plain (mode : UInt32) : Prop := fileType mode = S_IFDIR ∨ fileType mode = S_IFREG

instance (mode : UInt32) : Decidable (Plain mode) := inferInstanceAs (Decidable (_ ∨ _))

/-- `fs_chmod` keeps the type of an inode when the new mode brings no other type bits. -/
theorem fileType_chmodMode {old mode : UInt32} (h : fileType mode ||| fileType old = fileType old) :
    fileType (FS.chmodMode old mode) = fileType old := by
  rw [FS.chmodMode]
  split
  · next hd =>
    rw [(sIsDir_iff old).1 hd] at h ⊢
    rw [fileType_or, UInt32.or_comm]
    exact h
  · split
    · next hr =>
      rw [(sIsReg_iff old).1 hr] at h ⊢
      rw [fileType_or, UInt32.or_comm]
      exact h
    · rfl

/-- The calls of this module. -/
def Call.OnTypes : Call → Prop
  | .mknod _ _ | .mkdir _ _ | .unlink _ | .rmdir _ | .rename _ _ | .truncate _ _ | .chmod _ _ => True
  | .utime _ _ | .write _ _ _ _ => False

namespace FS

variable {g : Layout} {s s' : FS g} {c : Context} {a : Call} {path : Path} {r : ℤ}

/-- Every inode named by a valid entry is a directory or a regular file, and the entry says
which. -/
def TypesAgree (s : FS g) : Prop := ∀ d j i, s.Edge d j i →
  Plain (s.inodes i).mode ∧ ((s.entry d j).isDir = true ↔ fileType (s.inodes i).mode = S_IFDIR)

/-- Every inode that stays allocated keeps its type. -/
def KeepsTypes (s s' : FS g) : Prop := ∀ i, s.inodeMap i = true → s'.inodeMap i = true →
  fileType (s'.inodes i).mode = fileType (s.inodes i).mode

/-- There is room for a new file at a path: its parent is a directory with a free slot and
nothing of that name, and one of the 64 inodes is free. -/
def Creatable (s : FS g) (path : Path) : Prop := ∃ p last, s.Parent path p last ∧
  s.child p last = .inl (-ENOENT) ∧ (∃ i < 64, s.inodeMap i = false) ∧
  ∃ j < 32, (s.entry p j).valid = false

/-- The condition on the modes that come in with a call. -/
def TypeSafe (s : FS g) : Call → Prop
  | .mknod path mode => Plain mode ∨ ¬ s.Creatable path
  | .mkdir path mode => Plain (mode ||| S_IFDIR) ∨ ¬ s.Creatable path
  | .chmod path mode => ∀ i, s.resolve 1 path.tokens = .inr i →
      fileType mode ||| fileType (s.inodes i).mode = fileType (s.inodes i).mode
  | _ => True

/-- What the calls of a run have to meet. -/
def TypesGuard (s : FS g) (a : Call) : Prop := a.OnTypes ∧ s.TypeSafe a

/-- The invariant: besides a tree, plain types, and no file that holds a block. -/
structure Typed (s : FS g) : Prop extends Wf s where
  plain : ∀ i, s.inodeMap i = true → i ≠ 0 → Plain (s.inodes i).mode
  filesEmpty : ∀ i σ b, s.owner (i, σ) = some b → s.isDir i = true

theorem KeepsTypes.refl (s : FS g) : KeepsTypes s s := fun _ _ _ => rfl

theorem Typed.typesAgree (h : Typed s) : s.TypesAgree := by
  intro d j i he
  obtain ⟨hi, hi2, -⟩ := h.edge_child he
  refine ⟨h.plain i hi (by omega), ?_⟩
  rw [h.edge_isDir he]
  exact sIsDir_iff _

theorem Typed.vacant (h : Typed s) : Vacant s := ⟨h.toWf, h.filesEmpty⟩

theorem Vacant.typed (h : Vacant s) (hplain : ∀ i, s.inodeMap i = true → i ≠ 0 → Plain (s.inodes i).mode) :
    Typed s :=
  ⟨h.toWf, hplain, h.filesEmpty⟩

theorem Typed.writeInodeMap (h : Typed s) : Typed s.writeInodeMap :=
  h.vacant.writeInodeMap.typed h.plain

/-- A creation brings in a new inode of the type that the mode says. -/
theorem Typed.mknodResult (h : Typed s) {mode : UInt32} (hm : Plain mode ∨ ¬ s.Creatable path)
    (hr : MknodResult c s path mode r s') : Typed s' ∧ KeepsTypes s s' := by
  cases hr with
  | badPath => exact ⟨h, .refl s⟩
  | «exists» => exact ⟨h, .refl s⟩
  | noInode => exact ⟨h, .refl s⟩
  | noSlot => exact ⟨h.writeInodeMap, .refl s⟩
  | noBlock => exact ⟨h.writeInodeMap, .refl s⟩
  | @created p j n last _ _ hp hc =>
    have hplain : Plain mode := hm.resolve_right fun hno => hno
      ⟨p, last, hp, hc.missing, ⟨n, hc.inode_lt, hc.inode_free⟩, j, hc.slot_lt, hc.slot_free⟩
    refine ⟨(h.vacant.created hc).typed fun i hi hi0 => ?_, fun i hi _ => ?_⟩
    · rw [hc.inodes, update_apply]
      split
      · rwa [createdInode_mode]
      · next hin => exact h.plain i (((hc.inodeMap_iff i).1 hi).resolve_right hin) hi0
    · rw [hc.inodes, update_of_ne (hc.ne_of_alloc hi)]

theorem Typed.removed (h : Typed s) {p j i : ℕ} {e : Dirent} (hr : Removed p j i e s s') :
    Typed s' ∧ KeepsTypes s s' := by
  refine ⟨(h.vacant.removed hr).typed fun k hk hk0 => ?_, fun k _ hk => ?_⟩
  · obtain ⟨hk, hki⟩ := (hr.inodeMap_iff k).1 hk
    rw [hr.inodes k hki]
    exact h.plain k hk hk0
  · rw [hr.inodes k ((hr.inodeMap_iff k).1 hk).2]

theorem Typed.renamed (h : Typed s) {p j i : ℕ} {new : Name} (hr : Renamed c p j i new s s') :
    Typed s' ∧ KeepsTypes s s' := by
  have hmode : ∀ k, (s'.inodes k).mode = (s.inodes k).mode := fun k => by
    rw [hr.inodes]
    exact field_update Inode.mode (by rfl) k
  refine ⟨(h.vacant.renamed hr).typed fun k hk hk0 => ?_, fun k _ _ => ?_⟩
  · rw [hmode]
    exact h.plain k (hr.inodeMap ▸ hk) hk0
  · rw [hmode]

theorem Typed.truncated (h : Typed s) {i : ℕ} (hi : s.inodeMap i = true) (hf : s.isDir i = false)
    (ht : Truncated i s s') : Typed s' ∧ KeepsTypes s s' := by
  have hmode : ∀ k, (s'.inodes k).mode = (s.inodes k).mode := fun k => by
    rcases eq_or_ne k i with rfl | hk
    · exact ht.mode
    · rw [ht.inodes k hk]
  refine ⟨(h.vacant.truncated hi hf ht).typed fun k hk hk0 => ?_, fun k _ _ => ?_⟩
  · rw [hmode]
    exact h.plain k (ht.inodeMap ▸ hk) hk0
  · rw [hmode]

theorem Typed.chmod (h : Typed s) {i : ℕ} {mode now : UInt32}
    (hm : fileType mode ||| fileType (s.inodes i).mode = fileType (s.inodes i).mode)
    (hs' : s' = (s.setInode i
      { s.inodes i with mode := chmodMode (s.inodes i).mode mode, ctime := now }).writeAllInodes) :
    Typed s' ∧ KeepsTypes s s' := by
  have htype := fileType_chmodMode hm
  have hdir : sIsDir (chmodMode (s.inodes i).mode mode) = s.isDir i := by
    rw [isDir, Bool.eq_iff_iff, sIsDir_iff, sIsDir_iff, htype]
  have hkeep : ∀ k, fileType (s'.inodes k).mode = fileType (s.inodes k).mode := fun k => by
    rw [hs']
    exact field_update (fun ino => fileType ino.mode) htype k
  have hmap : s'.inodeMap = s.inodeMap := by rw [hs']; rfl
  have hvacant : Vacant s' := by
    rw [hs']
    exact h.vacant.touch hdir rfl rfl rfl
  refine ⟨hvacant.typed fun k hk hk0 => ?_, fun k _ _ => hkeep k⟩
  rw [Plain, hkeep]
  exact h.plain k (hmap ▸ hk) hk0

/-- One call keeps the types. -/
theorem Typed.step (h : Typed s) (hg : s.TypesGuard a) (hs : s.Step a s') :
    Typed s' ∧ KeepsTypes s s' := by
  obtain ⟨c, r, hs⟩ := hs
  obtain ⟨ha, hg⟩ := hg
  cases a with
  | mknod path mode => exact h.mknodResult hg (fsMknod_ok h.toWf hs)
  | mkdir path mode => exact h.mknodResult hg (fsMkdir_ok h.toWf hs)
  | unlink path =>
    cases fsUnlink_ok h.toWf hs with
    | badPath => exact ⟨h, .refl s⟩
    | isDir => exact ⟨h, .refl s⟩
    | removed _ _ _ hr => exact h.removed hr
  | rmdir path =>
    cases fsRmdir_ok h.toWf hs with
    | badPath => exact ⟨h, .refl s⟩
    | notDir => exact ⟨h, .refl s⟩
    | notEmpty => exact ⟨h, .refl s⟩
    | removed _ _ _ hr => exact h.removed hr
  | rename srcPath dstPath =>
    cases fsRename_ok h.toWf hs with
    | badPath => exact ⟨h, .refl s⟩
    | otherDir => exact ⟨h, .refl s⟩
    | taken => exact ⟨h, .refl s⟩
    | renamed _ _ _ _ hr => exact h.renamed hr
  | truncate path len =>
    cases h.fsTruncate_ok hs with
    | badLength => exact ⟨h, .refl s⟩
    | badPath => exact ⟨h, .refl s⟩
    | isDir => exact ⟨h, .refl s⟩
    | truncated _ hr hf ht => exact h.truncated (h.alloc_of_resolve hr) hf ht
  | chmod path mode =>
    cases fsChmod_ok hs with
    | badPath => exact ⟨h, .refl s⟩
    | touched hr => exact h.chmod (hg _ hr) rfl
  | utime | write => exact ha.elim

theorem typed_fresh {n : ℕ} (h : Formattable n) (t : UInt32) : Typed (fresh h t) := by
  refine (vacant_fresh h t).typed fun i hi hi0 => ?_
  obtain rfl : i = 1 := by
    have := (inodeMap_fresh h t i).1 hi
    omega
  exact Or.inl ((sIsDir_iff _).1 (wf_fresh h t).root_isDir)

/-- **File types are stable** in every run from a freshly formatted image whose modes bring
no other types. -/
theorem typesAgree_of_run {n : ℕ} (h : Formattable n) (t : UInt32) (s : FS (layout h))
    (hrun : Run Step TypesGuard (fresh h t) s) :
    s.TypesAgree ∧ ∀ a s', s.TypesGuard a → s.Step a s' → KeepsTypes s s' := by
  have hinv : Typed s := hrun.invariant (typed_fresh h t) fun _ _ _ hs hg hstep =>
    (hs.step hg hstep).1
  exact ⟨hinv.typesAgree, fun a s' hg hstep => (hinv.step hg hstep).2⟩

/-- `mknod /a` with mode 0100644, `chmod /a` with mode 0600. -/
def permissionsRun : List Call := [.mknod pathA 0x81A4, .chmod pathA 0x180]

/-- A run whose modes bring permissions only. -/
theorem typesAgree_of_permissionsRun :
    ∃ s, (fresh formattable_256 0).execAll ⟨1000, 1000, 0⟩ permissionsRun = .ok s ∧ s.TypesAgree := by
  have hend : endsIn (fun _ => true)
      ((fresh formattable_256 0).execAll ⟨1000, 1000, 0⟩ permissionsRun) = true := by
    decide +kernel
  obtain ⟨s, hs, -⟩ := exists_of_endsIn hend
  refine ⟨s, hs, (typesAgree_of_run formattable_256 0 s (run_of_execAll hs fun u a ha => ?_)).1⟩
  simp only [permissionsRun, List.mem_cons, List.not_mem_nil, or_false] at ha
  rcases ha with rfl | rfl
  · exact ⟨trivial, Or.inl (by decide)⟩
  · refine ⟨trivial, fun i _ => ?_⟩
    have hzero : fileType 0x180 = 0 := by decide
    rw [hzero, UInt32.zero_or]

/-- `mknod /a` with mode 010644, a FIFO. -/
def fifoRun : List Call := [.mknod pathA 0x11A4]

/-- `mknod /a` with mode 0100644. -/
def fileRun : List Call := [.mknod pathA 0x81A4]

/-- `chmod /a` with mode 040755, which has the type bits of a directory. -/
def typeChmod : Call := .chmod pathA 0x41ED

/-- With any modes, a file can be of another type, and a call can change the type of an
inode that stays allocated. -/
theorem not_typesAgree_of_run :
    (¬ ∀ (n : ℕ) (h : Formattable n) (t : UInt32) (s : FS (layout h)),
      Run Step (fun _ a => a.OnTypes ∧ a.Proper) (fresh h t) s → s.TypesAgree) ∧
    ¬ ∀ (n : ℕ) (h : Formattable n) (t : UInt32) (s : FS (layout h)),
      Run Step (fun _ a => a.OnTypes ∧ a.Proper) (fresh h t) s →
        ∀ a s', a.OnTypes ∧ a.Proper → s.Step a s' → KeepsTypes s s' := by
  constructor
  · intro hall
    have hend : endsIn (fun s => s.inodeMap 1 && s.isDir 1 && (s.entry 1 0).valid &&
        (s.entry 1 0).inode.toNat == 2 && !decide (Plain (s.inodes 2).mode))
        ((fresh formattable_256 0).execAll ⟨1000, 1000, 0⟩ fifoRun) = true := by
      decide +kernel
    obtain ⟨s, hs, htest⟩ := exists_of_endsIn hend
    simp only [Bool.and_eq_true, beq_iff_eq, Bool.not_eq_true', decide_eq_false_iff_not] at htest
    obtain ⟨⟨⟨⟨h1, h2⟩, hv⟩, hi⟩, htype⟩ := htest
    have hrun : Run Step (fun _ a => a.OnTypes ∧ a.Proper) _ s := run_of_execAll hs fun _ a ha => by
      rw [fifoRun, List.mem_singleton] at ha
      exact ha ▸ ⟨trivial, by decide +kernel⟩
    exact htype (hall 256 _ 0 s hrun 1 0 2 ⟨⟨h1, h2⟩, by omega, hv, hi⟩).1
  · intro hall
    have hend : endsIn (fun s => s.inodeMap 2 && fileType (s.inodes 2).mode == S_IFREG &&
        endsIn (fun s' => s'.inodeMap 2 && fileType (s'.inodes 2).mode != S_IFREG)
          (s.execAll ⟨1000, 1000, 0⟩ [typeChmod]))
        ((fresh formattable_256 0).execAll ⟨1000, 1000, 0⟩ fileRun) = true := by
      decide +kernel
    obtain ⟨s, hs, htest⟩ := exists_of_endsIn hend
    simp only [Bool.and_eq_true, beq_iff_eq] at htest
    obtain ⟨⟨hi, htype⟩, hend'⟩ := htest
    obtain ⟨s', hs', htest'⟩ := exists_of_endsIn hend'
    simp only [Bool.and_eq_true, bne_iff_ne, ne_eq] at htest'
    obtain ⟨hi', htype'⟩ := htest'
    have hrun : Run Step (fun _ a => a.OnTypes ∧ a.Proper) _ s := run_of_execAll hs fun _ a ha => by
      rw [fileRun, List.mem_singleton] at ha
      exact ha ▸ ⟨trivial, by decide +kernel⟩
    rw [execAll, bind_eq_ok] at hs'
    obtain ⟨⟨r, u⟩, hu, hs'⟩ := hs'
    obtain rfl := Except.ok.inj hs'
    have hkeep := hall 256 _ 0 s hrun typeChmod u ⟨trivial, by decide +kernel⟩ ⟨_, r, hu⟩ 2 hi hi'
    exact htype' (hkeep.trans htype)

end FS

end Fsx600
