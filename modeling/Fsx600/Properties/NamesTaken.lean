import Fsx600.Properties.UniqueNames
import Fsx600.Spec.NameTree
import Fsx600.Spec.Returns

/-!
# Which names are taken

`fs_mknod` asks the path walk whether a name is taken, and the walk skips slots whose valid
bit is clear.  `fs_rename` has a loop of its own over the 32 slots, and that does not look
at the valid bit.  `fs_rmdir` clears the whole slot, but `fs_unlink` clears the bit only and
leaves the name behind: after that the name is free for the one and taken for the other.

* `not_takenAlike_of_run`: three calls that lead there;
* `takenAlike_iff_of_run`: it happens for the names of stale slots, and for no others.
-/

namespace Fsx600

open Checked GuardedRun Mkfs

/-- The calls of this module: those that create or remove. -/
def Call.OnNodes : Call → Prop
  | .mknod _ _ | .mkdir _ _ | .unlink _ | .rmdir _ => True
  | .rename _ _ | .chmod _ _ | .utime _ _ | .truncate _ _ | .write _ _ _ _ => False

namespace FS

variable {g : Layout} {s s' : FS g} {c : Context} {a : Call} {path : Path} {p i : ℕ} {old new : Name}
  {mode : UInt32}

/-! ## The two tests -/

/-- `fs_rename` finds the new name taken exactly when a slot carries it. -/
theorem Indexed.fsRename_eexist_iff (h : Indexed s) {dstPath : Path} (hp : path.Small)
    (hp' : dstPath.Small) (hpar : s.Parent path p old) (hpar' : s.Parent dstPath p new)
    (hi : s.child p old = .inr i) : (∃ s', s.fsRename c path dstPath = .ok (-EEXIST, s')) ↔
      ∃ k < 32, (s.entry p k).named new = true := by
  constructor
  · rintro ⟨s', hs'⟩
    have hres := fsRename_ok h.toWf hs'
    generalize hr : -EEXIST = r at hres
    cases hres with
    | badPath hbad =>
      rw [hpar.resolve, hi] at hbad
      exact absurd hbad (by simp)
    | otherDir => exact absurd hr (by decide)
    | @taken q k old' new' hq hq' hk hn =>
      obtain rfl := Sum.inr.inj (hpar'.walk.symm.trans hq'.walk)
      obtain rfl := Option.some.inj (hpar'.last.symm.trans hq'.last)
      exact ⟨k, hk, hn⟩
    | renamed => exact absurd hr (by decide)
  · rintro ⟨k, hk, hn⟩
    exact ⟨s, h.fsRename_eexist hp hp' hpar hpar' hi hk hn⟩

/-- `fs_mknod` finds the name taken exactly when the path resolves. -/
theorem Indexed.fsMknod_eexist_iff (h : Indexed s) (hp : path.Small) (hpar : s.Parent path p new) :
    (∃ s', s.fsMknod c path mode = .ok (-EEXIST, s')) ↔ ∃ i, s.child p new = .inr i := by
  constructor
  · rintro ⟨s', hs'⟩
    have hres := fsMknod_ok h.toWf hs'
    generalize hr : -EEXIST = r at hres
    cases hres with
    | badPath he => rcases he with rfl | rfl <;> exact absurd hr (by decide)
    | @«exists» q last i hq hi =>
      obtain rfl := Sum.inr.inj (hpar.walk.symm.trans hq.walk)
      obtain rfl := Option.some.inj (hpar.last.symm.trans hq.last)
      exact ⟨i, hi⟩
    | noInode => exact absurd hr (by decide)
    | noSlot => exact absurd hr (by decide)
    | noBlock => exact absurd hr (by decide)
    | created => exact absurd hr (by decide)
  · rintro ⟨i, hi⟩
    exact ⟨s, h.fsMknod_eexist hp hpar hi mode⟩

/-- The path walk finds a name exactly when a valid slot carries it. -/
theorem child_isInr_iff : (∃ i, s.child p new = .inr i) ↔
    ∃ k < 32, (s.entry p k).valid = true ∧ (s.entry p k).named new = true := by
  constructor
  · rintro ⟨i, hi⟩
    obtain ⟨k, hf, -⟩ := child_inode hi
    obtain ⟨hk, hn, hv, -⟩ := findEntry_eq_some hf
    exact ⟨k, hk, hv, hn⟩
  · rintro ⟨k, hk, hv, hn⟩
    rw [child]
    cases hf : findEntry (s.dirBlock p) new with
    | none => exact absurd ((findEntry_eq_none hf k hk hn).symm.trans hv) Bool.false_ne_true
    | some j => exact ⟨_, rfl⟩

/-! ## Runs -/

theorem Indexed.step (h : Indexed s) (ha : a.OnEntries) (hs : s.Step a s') : Indexed s' := by
  obtain ⟨c, r, hs⟩ := hs
  cases a with
  | mknod path mode => exact h.mknod hs
  | mkdir path mode =>
    have hs : s.fsMknod c path (mode ||| S_IFDIR) = .ok (r, s') := hs
    exact h.mknod hs
  | unlink path => exact h.of_unlinkResult (fsUnlink_ok h.toWf hs)
  | rmdir path => exact h.of_rmdirResult (fsRmdir_ok h.toWf hs)
  | rename srcPath dstPath => exact h.of_renameResult (fsRename_ok h.toWf hs)
  | chmod | utime | truncate | write => exact ha.elim

theorem Call.OnNodes.onEntries (ha : a.OnNodes) : a.OnEntries := by
  cases a with
  | mknod | mkdir | unlink | rmdir => trivial
  | rename | chmod | utime | truncate | write => exact ha.elim

/-- Without renames nothing has to be asked of a run. -/
theorem namesGuard_of_onNodes (ha : a.OnNodes) : s.NamesGuard a := by
  refine ⟨Call.OnNodes.onEntries ha, ?_⟩
  rintro srcPath dstPath rfl
  exact ha.elim

end FS

theorem Mkfs.indexed_fresh {n : ℕ} (h : Formattable n) (t : UInt32) : (fresh h t).Indexed := by
  refine ⟨wf_fresh h t, fun i hi => ?_⟩
  have := nInoBlks_pos h
  rcases (inodeMap_fresh h t i).1 hi with rfl | rfl <;> simp [Layout.numInodes, layout] <;> omega

namespace FS

theorem indexed_of_run {n : ℕ} (h : Formattable n) (t : UInt32) {s : FS (layout h)}
    (hrun : Run Step (fun _ a => a.OnEntries) (fresh h t) s) : Indexed s :=
  hrun.invariant (P := Indexed) (indexed_fresh h t) fun _ _ _ hs hg hstep => hs.step hg hstep

variable {g : Layout}

/-- `fs_rename` of the entry `a` of a directory to the name `b` and `fs_mknod` of that name
report `-EEXIST` when the name resolves and only then. -/
def TakenAlike (c : Context) (s : FS g) (d : Path) {a b : Name} (ha : Name.IsComponent a)
    (hb : Name.IsComponent b) (mode : UInt32) : Prop :=
  ((∃ s', s.fsRename c (d.slash a ha.nul) (d.slash b hb.nul) = .ok (-EEXIST, s')) ↔
    ∃ i : ℕ, s.translatePathToInum (d.slash b hb.nul) = .ok (i : ℤ)) ∧
  ((∃ i : ℕ, s.translatePathToInum (d.slash b hb.nul) = .ok (i : ℤ)) ↔
    ∃ s', s.fsMknod c (d.slash b hb.nul) mode = .ok (-EEXIST, s'))

/-- **Which names are taken.**  In every state of a run of creations and removals from a
freshly formatted image, `fs_rename` and `fs_mknod` agree on a name exactly when no stale
slot carries it, unless a valid one does too. -/
theorem takenAlike_iff_of_run {n : ℕ} (h : Formattable n) (t : UInt32) (s : FS (layout h))
    (hrun : Run Step (fun _ a => a.OnNodes) (fresh h t) s) (c : Context) (d : Path) (p : ℕ)
    (hd : s.translatePathToInum d = .ok (p : ℤ)) (hdir : s.isDir p = true) {a b : Name}
    (ha : Name.IsComponent a) (i : ℕ) (hi : s.translatePathToInum (d.slash a ha.nul) = .ok (i : ℤ))
    (hb : Name.IsComponent b) (hlen : b.length ≤ 25) (mode : UInt32) :
    s.TakenAlike c d ha hb mode ↔
      ((∃ k < 32, (s.entry p k).valid = false ∧ (s.entry p k).named b = true) →
        ∃ k < 32, (s.entry p k).valid = true ∧ (s.entry p k).named b = true) := by
  have hin := indexed_of_run h t (hrun.mono fun _ _ ha => Call.OnNodes.onEntries ha)
  have hn := (named_of_run h t (hrun.mono fun _ _ ha => namesGuard_of_onNodes ha)).2
  have hwf := hin.toWf
  have hr := resolve_of_translate hd
  have hpar := hwf.parent_slash ha hr hdir
  have hpar' := hwf.parent_slash hb hr hdir
  have hchild := hpar.resolve.symm.trans (resolve_of_translate hi)
  have hdd : s.AllocDir p := ⟨hwf.alloc_of_resolve hr, hdir⟩
  have hfits : Name.Fits a := by
    obtain ⟨j, -, hfits, -⟩ := (hn.child_iff hdd ha.nul).1 hchild
    exact hfits
  have hsmall := hn.small_slash hwf hr ha hfits.length_le
  have hsmall' := hn.small_slash hwf hr hb hlen
  have htranslate : (∃ i : ℕ, s.translatePathToInum (d.slash b hb.nul) = .ok (i : ℤ)) ↔
      ∃ k < 32, (s.entry p k).valid = true ∧ (s.entry p k).named b = true := by
    rw [← child_isInr_iff]
    exact exists_congr fun i => by rw [hin.translate_iff, hpar'.resolve]
  rw [TakenAlike, hin.fsRename_eexist_iff hsmall hsmall' hpar hpar' hchild,
    hin.fsMknod_eexist_iff hsmall' hpar', htranslate, child_isInr_iff]
  constructor
  · rintro ⟨hrename, -⟩ ⟨k, hk, -, hnamed⟩
    exact hrename.1 ⟨k, hk, hnamed⟩
  · intro hstale
    refine ⟨⟨?_, ?_⟩, Iff.rfl⟩
    · rintro ⟨k, hk, hnamed⟩
      cases hv : (s.entry p k).valid with
      | true => exact ⟨k, hk, hv, hnamed⟩
      | false => exact hstale ⟨k, hk, hv, hnamed⟩
    · rintro ⟨k, hk, -, hnamed⟩
      exact ⟨k, hk, hnamed⟩

theorem isComponent_a : Name.IsComponent [97] := ⟨by decide, by decide, by decide⟩

theorem isComponent_b : Name.IsComponent [98] := ⟨by decide, by decide, by decide⟩

/-- `mknod /a`, `mkdir /b`, `rmdir /b`. -/
def rmdirRun : List Call := [.mknod pathA 0x81A4, .mkdir pathB 0x1ED, .rmdir pathB]

/-- After these calls the name `b` is free for both. -/
theorem takenAlike_of_rmdirRun : ∃ s,
    (fresh formattable_256 0).execAll ⟨1000, 1000, 0⟩ rmdirRun = .ok s ∧
      s.TakenAlike ⟨1000, 1000, 0⟩ rootPath isComponent_a isComponent_b 0x81A4 := by
  have hend : endsIn (fun s => decide (s.resolve 1 rootPath.tokens = .inr 1) && s.isDir 1 &&
      decide (s.resolve 1 (rootPath.slash [97] isComponent_a.nul).tokens = .inr 2) &&
      (List.range 32).all fun k => (s.entry 1 k).valid || !(s.entry 1 k).named [98])
      ((fresh formattable_256 0).execAll ⟨1000, 1000, 0⟩ rmdirRun) = true := by
    decide +kernel
  obtain ⟨s, hs, ht⟩ := exists_of_endsIn hend
  simp only [Bool.and_eq_true, decide_eq_true_iff, List.all_eq_true, List.mem_range] at ht
  obtain ⟨⟨⟨hroot, hdir⟩, ha⟩, hslots⟩ := ht
  have hrun : Run Step (fun _ a => a.OnNodes) (fresh formattable_256 0) s :=
    run_of_execAll hs fun _ a ha => by
      simp only [rmdirRun, List.mem_cons, List.not_mem_nil, or_false] at ha
      rcases ha with rfl | rfl | rfl <;> trivial
  have hin := indexed_of_run formattable_256 0 (hrun.mono fun _ _ ha => Call.OnNodes.onEntries ha)
  refine ⟨s, hs, (takenAlike_iff_of_run formattable_256 0 s hrun _ rootPath 1
    (hin.translate_iff.2 hroot) hdir isComponent_a 2
    (hin.translate_iff.2 ha) isComponent_b
    (by decide) _).2 ?_⟩
  rintro ⟨k, hk, hv, hnamed⟩
  have hslot := hslots k hk
  rw [hv, hnamed] at hslot
  exact absurd hslot (by decide)

/-- `mknod /a`, `mknod /b`, `unlink /b`. -/
def staleRun : List Call := [.mknod pathA 0x81A4, .mknod pathB 0x81A4, .unlink pathB]

/-- After these calls `fs_mknod` would take the name `b`, and `fs_rename` reports that it is
taken. -/
theorem not_takenAlike_of_run : ¬ ∀ (n : ℕ) (h : Formattable n) (t : UInt32) (s : FS (layout h)),
    Run Step (fun _ a => a.OnNodes ∧ a.Proper) (fresh h t) s → ∀ (c : Context) (d : Path) (p : ℕ),
      s.translatePathToInum d = .ok (p : ℤ) → s.isDir p = true → ∀ (a b : Name)
      (ha : Name.IsComponent a) (i : ℕ), s.translatePathToInum (d.slash a ha.nul) = .ok (i : ℤ) →
      ∀ (hb : Name.IsComponent b), b.length ≤ 25 → ∀ mode, s.TakenAlike c d ha hb mode := by
  intro hall
  have hend : endsIn (fun s => decide (s.resolve 1 rootPath.tokens = .inr 1) && s.isDir 1 &&
      decide (s.resolve 1 (rootPath.slash [97] isComponent_a.nul).tokens = .inr 2) &&
      decide (s.resolve 1 (rootPath.slash [98] isComponent_b.nul).tokens = .inl (-ENOENT)) &&
      decide (returned (s.fsRename ⟨1000, 1000, 0⟩ (rootPath.slash [97] isComponent_a.nul)
        (rootPath.slash [98] isComponent_b.nul)) = some (-EEXIST)))
      ((fresh formattable_256 0).execAll ⟨1000, 1000, 0⟩ staleRun) = true := by
    decide +kernel
  obtain ⟨s, hs, ht⟩ := exists_of_endsIn hend
  simp only [Bool.and_eq_true, decide_eq_true_iff] at ht
  obtain ⟨⟨⟨⟨hroot, hdir⟩, ha⟩, hb⟩, hrename⟩ := ht
  have hrun : Run Step (fun _ a => a.OnNodes ∧ a.Proper) (fresh formattable_256 0) s :=
    run_of_execAll hs fun _ a ha => by
      simp only [staleRun, List.mem_cons, List.not_mem_nil, or_false] at ha
      rcases ha with rfl | rfl | rfl <;> exact ⟨trivial, by decide +kernel⟩
  have hin := indexed_of_run formattable_256 0 (hrun.mono fun _ _ ha => Call.OnNodes.onEntries ha.1)
  have htaken := hall 256 formattable_256 0 s hrun ⟨1000, 1000, 0⟩ rootPath 1
    (hin.translate_iff.2 hroot) hdir [97] [98] isComponent_a 2
    (hin.translate_iff.2 ha) isComponent_b
    (by decide) 0x81A4
  obtain ⟨i, hi⟩ := htaken.1.1 (exists_of_returned hrename)
  exact absurd (hb.symm.trans (resolve_of_translate hi)) (by simp)

end FS

end Fsx600
