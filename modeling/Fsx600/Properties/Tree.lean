import Fsx600.Spec.Returns
import Fsx600.Spec.Fresh

/-!
# The operations on names keep the tree

From every well-formed state, every call of `fs_mknod`, `fs_mkdir`, `fs_unlink`,
`fs_rmdir`, `fs_rename` or `fs_utime` on proper paths returns, and it returns into a
well-formed state.
-/

namespace Fsx600

open Checked

/-- The calls of this module. -/
def Call.OnTree : Call → Prop
  | .mknod _ _ | .mkdir _ _ | .unlink _ | .rmdir _ | .rename _ _ | .utime _ _ => True
  | .chmod _ _ | .truncate _ _ | .write _ _ _ _ => False

namespace FS

variable {g : Layout} {s s' : FS g} {c : Context} {a : Call} {r : ℤ}

/-- On its way to the next state none of these calls trips over an assertion. -/
theorem WellFormed.exec_returns (h : WellFormed s) (c : Context) (ha : a.OnTree) (hp : a.Proper) :
    Returns (s.exec c a) := by
  cases a with
  | mknod path mode => exact h.fsMknod_returns hp mode
  | mkdir path mode => exact h.fsMknod_returns hp (mode ||| S_IFDIR)
  | unlink path => exact h.indexed.fsUnlink_returns hp.small
  | rmdir path => exact h.indexed.fsRmdir_returns hp.small (Or.inl hp.ne_nil)
  | rename srcPath dstPath => exact h.indexed.fsRename_returns hp.1.small hp.2.small (Or.inl hp.1.ne_nil)
  | utime path modtime => exact h.indexed.fsUtime_returns hp.2.1 modtime
  | chmod | truncate | write => exact ha.elim

/-- A call that returns leaves a well-formed tree, whatever its paths are. -/
theorem Wf.exec (hwf : Wf s) (ha : a.OnTree) (h : s.exec c a = .ok (r, s')) : Wf s' := by
  cases a with
  | mknod path mode => exact (fsMknod_ok hwf h).wf hwf
  | mkdir path mode => exact (fsMkdir_ok hwf h).wf hwf
  | unlink path => exact (fsUnlink_ok hwf h).wf hwf
  | rmdir path => exact (fsRmdir_ok hwf h).wf hwf
  | rename srcPath dstPath => exact (fsRename_ok hwf h).wf hwf
  | utime path modtime =>
    exact (fsUtime_ok h).wf hwf (fun _ _ => rfl) (fun _ => rfl) (fun _ => rfl) fun _ => rfl
  | chmod | truncate | write => exact ha.elim

/-- **The operations on names preserve the tree.** -/
theorem wellFormed_of_call (c : Context) (s : FS g) (h : WellFormed s) (a : Call) (ha : a.OnTree)
    (hp : a.Proper) : ∃ r s', s.exec c a = .ok (r, s') ∧ WellFormed s' := by
  obtain ⟨⟨r, s'⟩, hr⟩ := h.exec_returns c ha hp
  exact ⟨r, s', hr, h.exec ha hr, h.inodes_ge⟩

/-- `mkdir /a` on a new image. -/
theorem wellFormed_of_firstCall : ∃ r s', (Mkfs.fresh Mkfs.formattable_256 0).exec ⟨1000, 1000, 0⟩
    (.mkdir ⟨[47, 97], by decide⟩ 0x1ED) = .ok (r, s') ∧ WellFormed s' :=
  wellFormed_of_call _ _ (Mkfs.wellFormed_fresh _ _ (by decide)) _ trivial (by decide +kernel)

end FS

end Fsx600
