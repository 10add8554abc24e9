import Fsx600.Model.File
import Fsx600.Model.Format
import Fsx600.Lib.GuardedRun

/-!
# Calls and runs

The operations that change a mounted file system, as one type of calls with one
step function, and the runs they make.  A run stops at a fault; every state in it
is the state after a call that returned.

The calls of one run are made in any context, that is by any user at any time.
-/

namespace Fsx600

open Checked GuardedRun

/-- A call of one of the operations of `fs_ops` that can change the state. -/
inductive Call where
  | mknod (path : Path) (mode : UInt32)
  | mkdir (path : Path) (mode : UInt32)
  | unlink (path : Path)
  | rmdir (path : Path)
  | rename (srcPath dstPath : Path)
  | chmod (path : Path) (mode : UInt32)
  | utime (path : Path) (modtime : UInt32)
  | truncate (path : Path) (len : ℤ)
  | write (path : Path) (buf : ℕ → UInt8) (len offset : ℕ)

/-- One call: the return code and the next state. -/
def FS.exec {g : Layout} (c : Context) (s : FS g) : Call → Except Fault (ℤ × FS g)
  | .mknod path mode => s.fsMknod c path mode
  | .mkdir path mode => s.fsMkdir c path mode
  | .unlink path => s.fsUnlink c path
  | .rmdir path => s.fsRmdir path
  | .rename srcPath dstPath => s.fsRename c srcPath dstPath
  | .chmod path mode => s.fsChmod c path mode
  | .utime path modtime => s.fsUtime path modtime
  | .truncate path len => s.fsTruncate path len
  | .write path buf len offset => s.fsWrite c path buf len offset

/-- A call that returns, in whatever context, takes the state to the next one. -/
def FS.Step {g : Layout} (s : FS g) (a : Call) (s' : FS g) : Prop :=
  ∃ c r, s.exec c a = .ok (r, s')

/-- Calls one after another. -/
def FS.execAll {g : Layout} (c : Context) (s : FS g) : List Call → Except Fault (FS g)
  | [] => .ok s
  | a :: rest => do
    let (_, s) ← s.exec c a
    s.execAll c rest

/-- A path of at most 63 components, each a name of at most 25 bytes. -/
def Path.Small (p : Path) : Prop := p.tokens.length ≤ 63 ∧ ∀ t ∈ p.tokens, t.length ≤ 25

instance (p : Path) : Decidable p.Small :=
  inferInstanceAs (Decidable (_ ∧ _))

/-- A path with 1 to 63 components, each a name of at most 25 bytes (a component is
never empty). -/
def Path.Proper (p : Path) : Prop :=
  0 < p.tokens.length ∧ p.tokens.length ≤ 63 ∧ ∀ t ∈ p.tokens, t.length ≤ 25

instance (p : Path) : Decidable p.Proper :=
  inferInstanceAs (Decidable (_ ∧ _ ∧ _))

theorem Path.Proper.small {p : Path} (h : p.Proper) : p.Small := h.2

theorem Path.Proper.ne_nil {p : Path} (h : p.Proper) : p.tokens ≠ [] :=
  List.ne_nil_of_length_pos h.1

namespace Call

/-- Every path of the call is proper. -/
def Proper : Call → Prop
  | mknod path _ | mkdir path _ | unlink path | rmdir path | chmod path _ | utime path _
  | truncate path _ | write path _ _ _ => path.Proper
  | rename srcPath dstPath => srcPath.Proper ∧ dstPath.Proper

instance : (a : Call) → Decidable a.Proper
  | mknod path _ | mkdir path _ | unlink path | rmdir path | chmod path _ | utime path _
  | truncate path _ | write path _ _ _ => inferInstanceAs (Decidable path.Proper)
  | rename srcPath dstPath => inferInstanceAs (Decidable (srcPath.Proper ∧ dstPath.Proper))

/-- The path that a call is about: the source of a rename. -/
def path : Call → Path
  | mknod path _ | mkdir path _ | unlink path | rmdir path | chmod path _ | utime path _
  | truncate path _ | write path _ _ _ | rename path _ => path

end Call

/-! ## Runs on given inputs -/

/-- The path `/`. -/
def rootPath : Path := ⟨[47], by decide⟩

/-- The path `/a`. -/
def pathA : Path := ⟨[47, 97], by decide⟩

/-- The path `/b`. -/
def pathB : Path := ⟨[47, 98], by decide⟩

/-- The path `/a/b`. -/
def pathAB : Path := ⟨[47, 97, 47, 98], by decide⟩

/-- The return code, if the call returns. -/
def returned {g : Layout} : Except Fault (ℤ × FS g) → Option ℤ
  | .ok (r, _) => some r
  | .error _ => none

/-- A test of the state that calls lead to. -/
def endsIn {g : Layout} (p : FS g → Bool) : Except Fault (FS g) → Bool
  | .ok s => p s
  | .error _ => false

theorem exists_of_returned {g : Layout} {x : Except Fault (ℤ × FS g)} {r : ℤ}
    (h : returned x = some r) : ∃ s, x = .ok (r, s) := by
  cases x with
  | error e => simp [returned] at h
  | ok y =>
    obtain rfl := Option.some.inj h
    exact ⟨y.2, rfl⟩

theorem exists_of_endsIn {g : Layout} {p : FS g → Bool} {x : Except Fault (FS g)}
    (h : endsIn p x = true) : ∃ s, x = .ok s ∧ p s = true := by
  cases x with
  | error e => simp [endsIn] at h
  | ok s => exact ⟨s, rfl, h⟩

/-- Calls that all return are a run. -/
theorem run_of_execAll {g : Layout} {c : Context} {s t : FS g} {guard : FS g → Call → Prop}
    {calls : List Call} (h : s.execAll c calls = .ok t) (hg : ∀ s, ∀ a ∈ calls, guard s a) :
    Run FS.Step guard s t := by
  suffices ∀ u, Run FS.Step guard u s → Run FS.Step guard u t from this s .refl
  intro u hu
  induction calls generalizing s with
  | nil =>
    obtain rfl := Except.ok.inj h
    exact hu
  | cons a rest ih =>
    rw [FS.execAll, bind_eq_ok] at h
    obtain ⟨⟨r, s'⟩, hs', h⟩ := h
    exact ih h (fun s b hb => hg s b (List.mem_cons_of_mem a hb))
      (hu.tail (hg s a List.mem_cons_self) ⟨c, r, hs'⟩)

/-- Calls one after another, as long as they meet the guard and return. -/
def FS.guardedAll {g : Layout} (c : Context) (guard : FS g → Call → Prop)
    [∀ s a, Decidable (guard s a)] (s : FS g) : List Call → Option (FS g)
  | [] => some s
  | a :: rest =>
    if guard s a then
      match s.exec c a with
      | .ok (_, s) => s.guardedAll c guard rest
      | .error _ => none
    else none

theorem run_of_guardedAll {g : Layout} {c : Context} {s t : FS g} {guard : FS g → Call → Prop}
    [∀ s a, Decidable (guard s a)] {calls : List Call} (h : s.guardedAll c guard calls = some t) :
    Run FS.Step guard s t := by
  suffices ∀ u, Run FS.Step guard u s → Run FS.Step guard u t from this s .refl
  intro u hu
  induction calls generalizing s with
  | nil =>
    obtain rfl := Option.some.inj h
    exact hu
  | cons a rest ih =>
    rw [FS.guardedAll] at h
    split at h
    · next hg =>
      split at h
      · next r s' hs => exact ih h (hu.tail hg ⟨c, r, hs⟩)
      · simp at h
    · simp at h

end Fsx600
