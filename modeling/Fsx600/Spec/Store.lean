import Fsx600.Spec.NameTree

/-!
# A store of objects

What the file system is for, with neither inodes nor blocks: a map from paths to objects.  An
object is a mode and a list of bytes, and the bytes of a directory are none.  Every call is a
function on stores (`Store.exec`): it gives the code that the call returns and the store
afterwards.

There are 63 inodes to give away and 32 entries in a directory, so a store has at most 63
objects, and a directory at most 32 children.
-/

namespace Fsx600

open Function

/-- What a path leads to. -/
structure Object where
  mode : UInt32
  bytes : List UInt8

/-- The object is a directory. -/
def Object.isDir (o : Object) : Bool := sIsDir o.mode

/-- What the paths lead to. -/
abbrev Store : Type := List Name → Option Object

namespace Store

variable {M : Store} {q : List Name} {o : Object}

/-- The root alone, with the mode that it is made with. -/
def root : Store := fun q => if q = [] then some ⟨0x41FF, []⟩ else none

/-- The path names a directory. -/
def IsDir (M : Store) (q : List Name) : Prop := ∃ o, M q = some o ∧ o.isDir = true

/-- The names in a directory. -/
def children (M : Store) (q : List Name) : Set Name := {t | (M (q ++ [t])).isSome = true}

/-- The paths that lead somewhere. -/
def paths (M : Store) : Set (List Name) := {q | (M q).isSome = true}

open Classical in
/-- The error of a lookup: a file is on the way, or something is missing. -/
noncomputable def error (M : Store) (q : List Name) : ℤ :=
  if ∃ p o, p <+: q ∧ M p = some o ∧ o.isDir = false then -ENOTDIR else -ENOENT

/-- A call on the object that a path leads to. -/
noncomputable def withObject (M : Store) (q : List Name) (f : Object → ℤ × Store) : ℤ × Store :=
  match M q with
  | none => (M.error q, M)
  | some o => f o

open Classical in
/-- A new object. -/
noncomputable def create (M : Store) (q : List Name) (o : Object) : ℤ × Store :=
  if (M q).isSome = true then (-EEXIST, M)
  else if ¬ M.IsDir q.dropLast then (M.error q, M)
  else if M.paths.ncard < 63 ∧ (M.children q.dropLast).ncard < 32 then (0, update M q (some o))
  else (-ENOSPC, M)

open Classical in
/-- What a call returns, and the store that it leaves. -/
noncomputable def exec (M : Store) : Call → ℤ × Store
  | .mknod path mode => M.create path.tokens ⟨mode, []⟩
  | .mkdir path mode => M.create path.tokens ⟨mode ||| S_IFDIR, []⟩
  | .unlink path => M.withObject path.tokens fun o =>
    if o.isDir = true then (-EISDIR, M) else (0, update M path.tokens none)
  | .rmdir path => M.withObject path.tokens fun o =>
    if o.isDir = false then (-ENOTDIR, M)
    else if (M.children path.tokens).Nonempty then (-ENOTEMPTY, M)
    else (0, update M path.tokens none)
  | .rename srcPath dstPath => M.withObject srcPath.tokens fun _ =>
    if srcPath.tokens.dropLast ≠ dstPath.tokens.dropLast then (-EINVAL, M)
    else if (M dstPath.tokens).isSome = true then (-EEXIST, M)
    else (0, LabelledTree.move M srcPath.tokens dstPath.tokens)
  | .chmod path mode => M.withObject path.tokens fun o =>
    (0, update M path.tokens (some { o with mode := FS.chmodMode o.mode mode }))
  | .utime path _ => M.withObject path.tokens fun _ => (0, M)
  | .truncate path len =>
    if len ≠ 0 then (-EINVAL, M)
    else M.withObject path.tokens fun o =>
      if o.isDir = true then (-EISDIR, M)
      else (0, update M path.tokens (some { o with bytes := [] }))
  | .write path buf len offset => M.withObject path.tokens fun o =>
    if o.isDir = true then (-EISDIR, M)
    else if o.bytes.length < offset then (-EINVAL, M)
    else (len, update M path.tokens (some { o with
      bytes := o.bytes.take offset ++ (List.range len).map buf ++ o.bytes.drop (offset + len) }))

/-- Calls one after another. -/
noncomputable def execAll (M : Store) : List Call → List ℤ × Store
  | [] => ([], M)
  | a :: rest => ((M.exec a).1 :: ((M.exec a).2.execAll rest).1, ((M.exec a).2.execAll rest).2)

/-! ## The calls by what they find -/

theorem withObject_of_none (h : M q = none) (f : Object → ℤ × Store) :
    M.withObject q f = (M.error q, M) := by
  rw [withObject, h]

theorem withObject_of_some (h : M q = some o) (f : Object → ℤ × Store) : M.withObject q f = f o := by
  rw [withObject, h]

theorem create_of_isSome (h : (M q).isSome = true) : M.create q o = (-EEXIST, M) :=
  if_pos h

theorem create_of_not_isDir (hq : M q = none) (h : ¬ M.IsDir q.dropLast) :
    M.create q o = (M.error q, M) := by
  rw [create, if_neg (by simp [hq]), if_pos h]

theorem create_of_full (hq : M q = none) (h : M.IsDir q.dropLast)
    (hfull : ¬ (M.paths.ncard < 63 ∧ (M.children q.dropLast).ncard < 32)) :
    M.create q o = (-ENOSPC, M) := by
  rw [create, if_neg (by simp [hq]), if_neg (not_not.2 h), if_neg hfull]

theorem create_of_room (hq : M q = none) (h : M.IsDir q.dropLast)
    (hroom : M.paths.ncard < 63 ∧ (M.children q.dropLast).ncard < 32) :
    M.create q o = (0, update M q (some o)) := by
  rw [create, if_neg (by simp [hq]), if_neg (not_not.2 h), if_pos hroom]

end Store

end Fsx600
