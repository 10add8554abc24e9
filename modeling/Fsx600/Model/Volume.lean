import Fsx600.Model.Calls

/-!
# Mounting again

The program keeps nothing between two runs of it but the image, so to stop it and to start it
again is to call `fs_init` on the image that it leaves.  A volume is what `fs_init` gives: the
layout that it read, and the state.
-/

namespace Fsx600

open Checked

/-- A mounted file system, with the layout that `fs_init` found. -/
abbrev Volume : Type := (g : Layout) × FS g

/-- What can happen to a volume: a call in some context, or the end of the process and the
start of another one. -/
inductive Event where
  | call (c : Context) (a : Call)
  | remount

/-- The calls among the events. -/
def Event.calls : List Event → List (Context × Call)
  | [] => []
  | .call c a :: rest => (c, a) :: calls rest
  | .remount :: rest => calls rest

/-- Events one after another: what the calls return, and the volume that they leave. -/
def Volume.run (v : Volume) : List Event → Except Fault (List ℤ × Volume)
  | [] => .ok ([], v)
  | .call c a :: rest => do
    let (r, s) ← v.2.exec c a
    let (codes, w) ← Volume.run ⟨v.1, s⟩ rest
    .ok (r :: codes, w)
  | .remount :: rest => do
    let v ← fsInit v.2.image
    Volume.run v rest

/-- Calls one after another: what they return, and the state that they leave. -/
def FS.runCalls {g : Layout} (s : FS g) : List (Context × Call) → Except Fault (List ℤ × FS g)
  | [] => .ok ([], s)
  | (c, a) :: rest => do
    let (r, s) ← s.exec c a
    let (codes, t) ← s.runCalls rest
    .ok (r :: codes, t)

end Fsx600
