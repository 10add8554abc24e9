import Fsx600.Spec.Naming
import Fsx600.Model.Calls

/-!
# Names in a directory

`fs_rename` checks that no entry has the new name, but stores something else when the new
name is shorter than the old one: `strncpy(name, new, strlen(new))` leaves the tail of the
old name behind the new one.  So renaming `/ab` to `/c` stores `cb`, next to an entry `cb`
that may be there already.

* `not_namesUnique_of_run`: three calls that lead to two entries of one name;
* `namesUnique_of_run`: every run without such a rename keeps the names apart.
-/

namespace Fsx600

open Checked GuardedRun Mkfs

/-- The calls of this module. -/
def Call.OnEntries : Call → Prop
  | .mknod _ _ | .mkdir _ _ | .unlink _ | .rmdir _ | .rename _ _ => True
  | .chmod _ _ | .utime _ _ | .truncate _ _ | .write _ _ _ _ => False

namespace FS

variable {g : Layout} {s s' : FS g} {a : Call}

/-- No directory holds two valid entries with equal names. -/
def NamesUnique (s : FS g) : Prop :=
  ∀ d, s.AllocDir d → ∀ j < 32, ∀ k < 32, (s.entry d j).valid = true → (s.entry d k).valid = true →
    (s.entry d j).cname = (s.entry d k).cname → j = k

/-- A rename that would go through, from `old` to `new` in the directory `p`, stores a name
that no entry but that of `old` has. -/
def RenameSafe (s : FS g) (srcPath dstPath : Path) : Prop :=
  ∀ p old new i, s.Parent srcPath p old → s.Parent dstPath p new → s.child p old = .inr i →
    (∀ k < 32, (s.entry p k).named new = false) →
    ∀ k < 32, (s.entry p k).valid = true → (s.entry p k).named (overwrite old new) = true →
      (s.entry p k).named old = true

/-- A new name that is no shorter than the old one is stored as it is. -/
theorem renameSafe_of_length_le {srcPath dstPath : Path}
    (h : ∀ old new, srcPath.tokens.getLast? = some old → dstPath.tokens.getLast? = some new →
      old.length ≤ new.length) : s.RenameSafe srcPath dstPath := by
  intro p old new i hp hp' _ hunused k hk _ hnamed
  rw [overwrite_of_le (h old new hp.last hp'.last), hunused k hk] at hnamed
  exact Bool.noConfusion hnamed

/-- What the calls of a run have to meet. -/
def NamesGuard (s : FS g) (a : Call) : Prop :=
  a.OnEntries ∧ ∀ srcPath dstPath, a = .rename srcPath dstPath → s.RenameSafe srcPath dstPath

theorem Named.namesUnique (hn : Named s) : s.NamesUnique := by
  intro d hd j hj k hk hv hv' heq
  have he : s.Edge d j _ := ⟨hd, hj, hv, rfl⟩
  have he' : s.Edge d k _ := ⟨hd, hk, hv', rfl⟩
  obtain ⟨t, ht, hh⟩ := hn.holds he
  obtain ⟨u, hu, hh'⟩ := hn.holds he'
  have := ht.length_le
  have := hu.length_le
  rw [Dirent.cname_of_holds hh ht.nul (by omega), Dirent.cname_of_holds hh' hu.nul (by omega)] at heq
  subst heq
  exact hn.distinct he he' ht hh hh'

/-- One call keeps the names apart. -/
theorem Named.step (hwf : Wf s) (hn : Named s) (hg : s.NamesGuard a) (h : s.Step a s') :
    Wf s' ∧ Named s' := by
  obtain ⟨c, r, h⟩ := h
  obtain ⟨ha, hg⟩ := hg
  cases a with
  | mknod path mode =>
    have hres := fsMknod_ok hwf h
    exact ⟨hres.wf hwf, hn.of_mknodResult hwf hres⟩
  | mkdir path mode =>
    have hres := fsMkdir_ok hwf h
    exact ⟨hres.wf hwf, hn.of_mknodResult hwf hres⟩
  | unlink path =>
    have hres := fsUnlink_ok hwf h
    exact ⟨hres.wf hwf, hn.of_unlinkResult hwf hres⟩
  | rmdir path =>
    have hres := fsRmdir_ok hwf h
    exact ⟨hres.wf hwf, hn.of_rmdirResult hwf hres⟩
  | rename srcPath dstPath =>
    have hres := fsRename_ok hwf h
    refine ⟨hres.wf hwf, ?_⟩
    cases hres with
    | badPath => exact hn
    | otherDir => exact hn
    | taken => exact hn
    | renamed hp hp' hi hj hren =>
      exact hn.renamed hwf (srcPath.nul_notMem_of_mem_tokens hp.mem) hj hren
        (hg srcPath dstPath rfl _ _ _ _ hp hp' hi hren.unused)
  | chmod | utime | truncate | write => exact ha.elim

theorem named_of_run {n : ℕ} (h : Formattable n) (t : UInt32) {s : FS (layout h)}
    (hrun : Run Step NamesGuard (fresh h t) s) : Wf s ∧ Named s :=
  hrun.invariant (P := fun s => Wf s ∧ Named s) ⟨wf_fresh h t, named_fresh h t⟩
    fun _ _ _ hs hg hstep => hs.2.step hs.1 hg hstep

/-- **Names are unique** in every state of a run from a freshly formatted image whose
renames are safe. -/
theorem namesUnique_of_run {n : ℕ} (h : Formattable n) (t : UInt32) (s : FS (layout h))
    (hrun : Run Step NamesGuard (fresh h t) s) : s.NamesUnique :=
  (named_of_run h t hrun).2.namesUnique

/-- `mknod /ab`, `mknod /cb`, `rename /ab /ccc`. -/
def longerRun : List Call :=
  [.mknod ⟨[47, 97, 98], by decide⟩ 0x81A4, .mknod ⟨[47, 99, 98], by decide⟩ 0x81A4,
    .rename ⟨[47, 97, 98], by decide⟩ ⟨[47, 99, 99, 99], by decide⟩]

/-- A run with a rename to a longer name. -/
theorem namesUnique_of_longerRun :
    ∃ s, (fresh formattable_256 0).execAll ⟨1000, 1000, 0⟩ longerRun = .ok s ∧ s.NamesUnique := by
  have hend : endsIn (fun _ => true)
      ((fresh formattable_256 0).execAll ⟨1000, 1000, 0⟩ longerRun) = true := by
    decide +kernel
  obtain ⟨s, hs, -⟩ := exists_of_endsIn hend
  refine ⟨s, hs, namesUnique_of_run formattable_256 0 s (run_of_execAll hs fun u a ha => ?_)⟩
  simp only [longerRun, List.mem_cons, List.not_mem_nil, or_false] at ha
  rcases ha with rfl | rfl | rfl
  · exact ⟨trivial, fun _ _ h => Call.noConfusion h⟩
  · exact ⟨trivial, fun _ _ h => Call.noConfusion h⟩
  · refine ⟨trivial, fun srcPath dstPath h => ?_⟩
    obtain ⟨rfl, rfl⟩ := Call.rename.inj h
    refine renameSafe_of_length_le fun old new hold hnew => ?_
    have hsrc : Path.tokens ⟨[47, 97, 98], by decide⟩ = [[97, 98]] := by decide +kernel
    have hdst : Path.tokens ⟨[47, 99, 99, 99], by decide⟩ = [[99, 99, 99]] := by decide +kernel
    rw [hsrc, List.getLast?_singleton, Option.some.injEq] at hold
    rw [hdst, List.getLast?_singleton, Option.some.injEq] at hnew
    subst hold hnew
    decide

/-- `mknod /ab`, `mknod /cb`, `rename /ab /c`. -/
def tailRun : List Call :=
  [.mknod ⟨[47, 97, 98], by decide⟩ 0x81A4, .mknod ⟨[47, 99, 98], by decide⟩ 0x81A4,
    .rename ⟨[47, 97, 98], by decide⟩ ⟨[47, 99], by decide⟩]

/-- After these calls the root directory holds two entries `cb`. -/
theorem not_namesUnique_of_run : ¬ ∀ (n : ℕ) (h : Formattable n) (t : UInt32) (s : FS (layout h)),
    Run Step (fun _ a => a.OnEntries ∧ a.Proper) (fresh h t) s → s.NamesUnique := by
  intro hall
  have hend : endsIn (fun s => s.inodeMap 1 && s.isDir 1 && (s.entry 1 0).valid && (s.entry 1 1).valid &&
      (s.entry 1 0).cname == (s.entry 1 1).cname)
      ((fresh formattable_256 0).execAll ⟨1000, 1000, 0⟩ tailRun) = true := by
    decide +kernel
  obtain ⟨s, hs, htest⟩ := exists_of_endsIn hend
  simp only [Bool.and_eq_true, beq_iff_eq] at htest
  obtain ⟨⟨⟨⟨h1, h2⟩, hv⟩, hv'⟩, hname⟩ := htest
  have hrun : Run Step (fun _ a => a.OnEntries ∧ a.Proper) _ s := run_of_execAll hs fun _ a ha => by
    simp only [tailRun, List.mem_cons, List.not_mem_nil, or_false] at ha
    rcases ha with rfl | rfl | rfl
    · exact ⟨trivial, by decide +kernel⟩
    · exact ⟨trivial, by decide +kernel⟩
    · exact ⟨trivial, by decide +kernel, by decide +kernel⟩
  exact absurd (hall 256 _ 0 s hrun 1 ⟨h1, h2⟩ 0 (by omega) 1 (by omega) hv hv' hname) (by omega)

end FS

end Fsx600
