import Fsx600.Properties.Tree
import Fsx600.Spec.NameTree
import Fsx600.Lib.Refinement

/-!
# The directories refine a tree of names

`fs_mknod`, `fs_mkdir`, `fs_unlink` and `fs_rmdir` against the model: which calls succeed,
what they do to the tree of names, and what a lookup finds after each of them.

The model says whether a path is there; how many inodes and blocks are left it does not
know, so `Succeeds` looks at the state for these.
-/

namespace Fsx600

open Checked Function Refinement Mkfs

/-- The calls of this module, with the modes they are made with: a regular file for
`fs_mknod`, permissions for `fs_mkdir`. -/
def Call.OnNames : Call → Prop
  | .mknod _ mode => fileType mode = S_IFREG
  | .mkdir _ mode => fileType mode = 0
  | .unlink _ | .rmdir _ => True
  | .rename _ _ | .chmod _ _ | .utime _ _ | .truncate _ _ | .write _ _ _ _ => False

namespace FS

variable {g : Layout} {s s' : FS g} {c : Context} {a : Call} {path : Path} {r : ℤ} {M M' : NameTree}

/-- A call returns `r`. -/
def Gives (s : FS g) (a : Call) (r : ℤ) (s' : FS g) : Prop := ∃ c, s.exec c a = .ok (r, s')

/-- The bits that are set in the inode map. -/
def setBits (s : FS g) : Finset ℕ := (Finset.range g.inodeBits).filter fun i => s.inodeMap i = true

/-- An inode that is not allocated and that no path names. -/
def Unused (s : FS g) (M : NameTree) (i : ℕ) : Prop :=
  s.inodeMap i = false ∧ ∀ q b, M q ≠ some (i, b)

/-- What it takes to create something at a path. -/
def RoomFor (s : FS g) (M : NameTree) (path : Path) : Prop :=
  M.IsDir path.tokens.dropLast ∧ M path.tokens = none ∧ s.setBits.card < 64 ∧
    (M.children path.tokens.dropLast).ncard < 32

/-- When a call succeeds. -/
def Succeeds (s : FS g) (M : NameTree) : Call → Prop
  | .mknod path _ => s.RoomFor M path
  | .mkdir path _ => s.RoomFor M path ∧ ∃ b, s.Free b
  | .unlink path => M.IsFile path.tokens
  | .rmdir path => M.IsDir path.tokens ∧ M.children path.tokens = ∅
  | _ => False

/-- What a call that succeeds does. -/
def Effect (s : FS g) (M : NameTree) : Call → NameTree → Prop
  | .mknod path _, M' => ∃ i, s.Unused M i ∧ M' = update M path.tokens (some (i, false))
  | .mkdir path _, M' => ∃ i, s.Unused M i ∧ M' = update M path.tokens (some (i, true))
  | .unlink path, M' | .rmdir path, M' => M' = update M path.tokens none
  | _, _ => False

/-- A step of the model: it succeeds when it should, and otherwise nothing changes. -/
structure TreeStep (s : FS g) (M : NameTree) (a : Call) (r : ℤ) (M' : NameTree) : Prop where
  succeeds : r = 0 ↔ s.Succeeds M a
  effect : r = 0 → s.Effect M a M'
  unchanged : r ≠ 0 → M' = M

/-- What `translate_path_to_inum` finds at every path. -/
def Lookups (s : FS g) (M : NameTree) : Prop := ∀ q : Path, q.tokens.length ≤ 63 →
  match M q.tokens with
  | some (i, _) => s.translatePathToInum q = .ok (i : ℤ)
  | none => s.translatePathToInum q = .ok (-ENOENT) ∨ s.translatePathToInum q = .ok (-ENOTDIR)

/-- The state of the program that goes with a tree of names. -/
structure Represents (s : FS g) (M : NameTree) : Prop extends WellFormed s where
  named : Named s
  agrees : s.Agrees M

theorem Represents.lookups (h : Represents s M) : s.Lookups M := by
  intro q hq
  obtain ⟨z, hz⟩ := h.indexed.translatePathToInum_returns hq
  obtain rfl := translatePathToInum_ok hz
  cases hr : s.resolve 1 q.tokens with
  | inr i =>
    rw [h.agrees.of_resolve h.toWf h.named hr]
    show s.translatePathToInum q = .ok (i : ℤ)
    rw [hz, hr, code_inr]
  | inl e =>
    rw [h.agrees.of_resolve_error h.toWf h.named hr]
    show _ ∨ _
    rw [hz, hr, code_inl]
    rcases resolve_error hr with rfl | rfl
    · exact Or.inl rfl
    · exact Or.inr rfl

/-! ## What the resources say -/

theorem Wf.card_setBits (hwf : Wf s) : s.setBits.card < 64 ↔ ∃ i < 64, s.inodeMap i = false := by
  have hsub : s.setBits ⊆ Finset.range 64 := by
    intro i hi
    rw [setBits, Finset.mem_filter] at hi
    exact Finset.mem_range.mpr (hwf.lt_of_alloc hi.2)
  have hbits := hwf.bits_ge
  rw [FirstFit.card_lt_iff_exists_notMem hsub]
  refine exists_congr fun i => and_congr_right fun hi => ?_
  rw [setBits, Finset.mem_filter, Finset.mem_range, Bool.eq_false_iff]
  exact not_congr (and_iff_right (by omega))

theorem card_validSlots {d : ℕ} :
    (s.validSlots d).card < 32 ↔ ∃ j < 32, (s.entry d j).valid = false := by
  have hsub : s.validSlots d ⊆ Finset.range 32 := Finset.filter_subset _ _
  rw [FirstFit.card_lt_iff_exists_notMem hsub]
  refine exists_congr fun j => and_congr_right fun hj => ?_
  rw [mem_validSlots, Bool.eq_false_iff]
  exact not_congr (and_iff_right hj)

/-! ## One call -/

/-- In terms of the state: the parent is a directory that lacks the name and has a free
slot, and an inode is free. -/
theorem Represents.roomFor_iff (h : Represents s M) {p : ℕ} {last : Name} (hp : s.Parent path p last) :
    s.RoomFor M path ↔ s.child p last = .inl (-ENOENT) ∧ (∃ i < 64, s.inodeMap i = false) ∧
      ∃ j < 32, (s.entry p j).valid = false := by
  have hdir := h.agrees.of_parent h.toWf h.named hp
  rw [RoomFor, h.card_setBits, h.agrees.ncard_children h.toWf h.named hdir, card_validSlots]
  constructor
  · rintro ⟨-, hnone, hi, hj⟩
    refine ⟨?_, hi, hj⟩
    cases hc : s.child p last with
    | inl e => rw [(child_error hc).1]
    | inr i =>
      rw [h.agrees.of_resolve h.toWf h.named (hp.resolve.trans hc)] at hnone
      exact absurd hnone (by simp)
  · rintro ⟨hc, hi, hj⟩
    exact ⟨⟨p, hdir⟩, h.agrees.of_resolve_error h.toWf h.named (hp.resolve.trans hc), hi, hj⟩

theorem Represents.unused (h : Represents s M) {i : ℕ} (hi : s.inodeMap i = false) : s.Unused M i := by
  refine ⟨hi, fun q b hq => ?_⟩
  have hnode := (h.named.tree h.toWf).arborescent.node_of_path ((h.agrees q i b).1 hq).1
  exact Bool.false_ne_true (hi.symm.trans hnode.1)

/-- A walk that fails leads to no directory of the model. -/
theorem Represents.not_roomFor (h : Represents s M) {e : ℤ}
    (hw : s.walk 1 path.tokens.dropLast = .inl e) : ¬ s.RoomFor M path := by
  rintro ⟨⟨p, hp⟩, -⟩
  rw [h.agrees.walk h.toWf h.named (fun t ht =>
    path.nul_notMem_of_mem_tokens (List.mem_of_mem_dropLast ht)) hp] at hw
  exact absurd hw (by simp)

theorem Represents.writeInodeMap (h : Represents s M) : Represents s.writeInodeMap M :=
  ⟨⟨h.toWf.writeInodeMap, h.inodes_ge⟩, h.named.writeInodeMap h.toWf, h.agrees.writeInodeMap h.toWf⟩

/-- **Creation.** -/
theorem Represents.mknodResult (h : Represents s M) {mode : UInt32}
    (hr : MknodResult c s path mode r s') :
    (r = 0 ↔ s.RoomFor M path ∧ (sIsDir mode = true → ∃ b, s.Free b)) ∧
    (r ≠ 0 → Represents s' M) ∧
    (r = 0 → ∃ i, s.Unused M i ∧
      Represents s' (update M path.tokens (some (i, sIsDir mode)))) := by
  cases hr with
  | badPath he hw =>
    have he := error_neg he
    refine ⟨⟨fun h0 => absurd h0 he.ne, fun hs => absurd hs.1 (h.not_roomFor hw)⟩,
      fun _ => h, fun h0 => absurd h0 he.ne⟩
  | «exists» hp hi =>
    refine ⟨⟨fun h0 => absurd h0 (by decide), fun hs => ?_⟩, fun _ => h, fun h0 => absurd h0 (by decide)⟩
    rw [h.roomFor_iff hp, hi] at hs
    exact absurd hs.1.1 (by simp)
  | noInode hp hfull =>
    refine ⟨⟨fun h0 => absurd h0 (by decide), fun hs => ?_⟩, fun _ => h, fun h0 => absurd h0 (by decide)⟩
    obtain ⟨i, hi, hclear⟩ := ((h.roomFor_iff hp).1 hs.1).2.1
    exact absurd (hclear.symm.trans (hfull i hi)) Bool.false_ne_true
  | noSlot hp hfull =>
    refine ⟨⟨fun h0 => absurd h0 (by decide), fun hs => ?_⟩, fun _ => h.writeInodeMap,
      fun h0 => absurd h0 (by decide)⟩
    obtain ⟨j, hj, hclear⟩ := ((h.roomFor_iff hp).1 hs.1).2.2
    exact absurd (hclear.symm.trans (hfull j hj)) Bool.false_ne_true
  | noBlock hp hdir hfull =>
    refine ⟨⟨fun h0 => absurd h0 (by decide), fun hs => ?_⟩, fun _ => h.writeInodeMap,
      fun h0 => absurd h0 (by decide)⟩
    obtain ⟨b, hb⟩ := hs.2 hdir
    exact absurd hb (hfull b)
  | @created p j n last fresh _ hp hc =>
    refine ⟨⟨fun _ => ⟨(h.roomFor_iff hp).2 ⟨hc.missing, ⟨n, hc.inode_lt, hc.inode_free⟩,
      j, hc.slot_lt, hc.slot_free⟩, fun hdir => ?_⟩, fun _ => rfl⟩, fun h0 => absurd rfl h0, fun _ => ?_⟩
    · obtain ⟨b, hb⟩ := Option.isSome_iff_exists.mp (hc.fresh_isSome.trans hdir)
      exact ⟨b, hc.fresh_free b hb⟩
    · exact ⟨n, h.unused hc.inode_free, ⟨h.toWf.created hc, h.inodes_ge⟩, h.named.created h.toWf hc,
        h.agrees.created h.toWf h.named hp hc⟩

/-- Taking an entry away. -/
theorem Represents.removed (h : Represents s M) {p j i : ℕ} {e : Dirent}
    (hr : s.resolve 1 path.tokens = .inr i) (hrem : Removed p j i e s s') :
    Represents s' (update M path.tokens none) :=
  ⟨⟨h.toWf.removed hrem, h.inodes_ge⟩, h.named.removed h.toWf hrem,
    h.agrees.removed h.toWf h.named hr hrem⟩

theorem Represents.unlinkResult (h : Represents s M) (hr : UnlinkResult s path r s') :
    (r = 0 ↔ M.IsFile path.tokens) ∧ (r ≠ 0 → Represents s' M) ∧
    (r = 0 → Represents s' (update M path.tokens none)) := by
  cases hr with
  | badPath hres =>
    have he := error_neg (resolve_error hres)
    refine ⟨⟨fun h0 => absurd h0 he.ne, fun hs => ?_⟩, fun _ => h, fun h0 => absurd h0 he.ne⟩
    obtain ⟨i, hi⟩ := hs
    exact absurd (hi.symm.trans (h.agrees.of_resolve_error h.toWf h.named hres)) (by simp)
  | isDir hres hd =>
    refine ⟨⟨fun h0 => absurd h0 (by decide), fun hs => ?_⟩, fun _ => h, fun h0 => absurd h0 (by decide)⟩
    obtain ⟨i, hi⟩ := hs
    have hdir := h.agrees.of_resolve h.toWf h.named hres
    rw [hd, hi] at hdir
    exact absurd hdir (by simp)
  | removed hp hi hd hrem =>
    have hres := hp.resolve.trans hi
    have hfile := h.agrees.of_resolve h.toWf h.named hres
    rw [hd] at hfile
    exact ⟨⟨fun _ => ⟨_, hfile⟩, fun _ => rfl⟩, fun h0 => absurd rfl h0, fun _ => h.removed hres hrem⟩

theorem Represents.rmdirResult (h : Represents s M) (hr : RmdirResult s path r s') :
    (r = 0 ↔ M.IsDir path.tokens ∧ M.children path.tokens = ∅) ∧ (r ≠ 0 → Represents s' M) ∧
    (r = 0 → Represents s' (update M path.tokens none)) := by
  cases hr with
  | badPath hres =>
    have he := error_neg (resolve_error hres)
    refine ⟨⟨fun h0 => absurd h0 he.ne, fun hs => ?_⟩, fun _ => h, fun h0 => absurd h0 he.ne⟩
    obtain ⟨⟨i, hi⟩, -⟩ := hs
    exact absurd (hi.symm.trans (h.agrees.of_resolve_error h.toWf h.named hres)) (by simp)
  | notDir hres hd =>
    refine ⟨⟨fun h0 => absurd h0 (by decide), fun hs => ?_⟩, fun _ => h, fun h0 => absurd h0 (by decide)⟩
    obtain ⟨⟨i, hi⟩, -⟩ := hs
    have hfile := h.agrees.of_resolve h.toWf h.named hres
    rw [hd, hi] at hfile
    exact absurd hfile (by simp)
  | @notEmpty i j hres hd hj hv =>
    refine ⟨⟨fun h0 => absurd h0 (by decide), fun hs => ?_⟩, fun _ => h, fun h0 => absurd h0 (by decide)⟩
    have hdir := h.agrees.of_resolve h.toWf h.named hres
    rw [hd] at hdir
    have he : s.Edge i j _ := ⟨⟨h.alloc_of_resolve hres, hd⟩, hj, hv, rfl⟩
    obtain ⟨t, ht, hh⟩ := h.named.holds he
    have hmem := (h.agrees.mem_children h.toWf h.named hdir).2 ⟨_, j, he, ht, hh⟩
    rw [hs.2] at hmem
    exact absurd hmem (Set.notMem_empty t)
  | @removed p i j last _ hp hi hd hrem hfree =>
    have hres := hp.resolve.trans hi
    have hdir := h.agrees.of_resolve h.toWf h.named hres
    rw [hd] at hdir
    have hempty : M.children path.tokens = ∅ := by
      refine Set.eq_empty_of_forall_notMem fun t ht => ?_
      obtain ⟨x, k, he, -⟩ := (h.agrees.mem_children h.toWf h.named hdir).1 ht
      exact hrem.not_edge k x he
    exact ⟨⟨fun _ => ⟨⟨_, hdir⟩, hempty⟩, fun _ => rfl⟩, fun h0 => absurd rfl h0,
      fun _ => h.removed hres hrem⟩

/-- **One call** is matched by a step of the model. -/
theorem Represents.matched (h : Represents s M) (ha : a.OnNames) (hr : s.Gives a r s') :
    ∃ M', s.TreeStep M a r M' ∧ Represents s' M' := by
  obtain ⟨c, hr⟩ := hr
  by_cases h0 : r = 0
  · cases a with
    | mknod path mode =>
      obtain ⟨hiff, -, hok⟩ := h.mknodResult (fsMknod_ok h.toWf hr)
      have hmode := sIsDir_of_regular ha
      rw [hmode] at hiff hok
      obtain ⟨i, hi, hrep⟩ := hok h0
      exact ⟨_, ⟨⟨fun hr0 => (hiff.1 hr0).1, fun _ => h0⟩, fun _ => ⟨i, hi, rfl⟩,
        fun hne => absurd h0 hne⟩, hrep⟩
    | mkdir path mode =>
      obtain ⟨hiff, -, hok⟩ := h.mknodResult (fsMkdir_ok h.toWf hr)
      have hmode := sIsDir_or_of_permissions ha
      rw [hmode] at hiff hok
      obtain ⟨i, hi, hrep⟩ := hok h0
      exact ⟨_, ⟨⟨fun hr0 => ⟨(hiff.1 hr0).1, (hiff.1 hr0).2 rfl⟩, fun _ => h0⟩,
        fun _ => ⟨i, hi, rfl⟩, fun hne => absurd h0 hne⟩, hrep⟩
    | unlink path =>
      obtain ⟨hiff, -, hok⟩ := h.unlinkResult (fsUnlink_ok h.toWf hr)
      exact ⟨_, ⟨hiff, fun _ => rfl, fun hne => absurd h0 hne⟩, hok h0⟩
    | rmdir path =>
      obtain ⟨hiff, -, hok⟩ := h.rmdirResult (fsRmdir_ok h.toWf hr)
      exact ⟨_, ⟨hiff, fun _ => rfl, fun hne => absurd h0 hne⟩, hok h0⟩
    | rename | chmod | utime | truncate | write => exact ha.elim
  · refine ⟨M, ⟨?_, fun hr0 => absurd hr0 h0, fun _ => rfl⟩, ?_⟩
    · cases a with
      | mknod path mode =>
        obtain ⟨hiff, -, -⟩ := h.mknodResult (fsMknod_ok h.toWf hr)
        refine ⟨fun hr0 => absurd hr0 h0, fun hs => hiff.2 ⟨hs, fun hd => ?_⟩⟩
        exact absurd ((sIsDir_of_regular ha).symm.trans hd) Bool.false_ne_true
      | mkdir path mode =>
        obtain ⟨hiff, -, -⟩ := h.mknodResult (fsMkdir_ok h.toWf hr)
        exact ⟨fun hr0 => absurd hr0 h0, fun hs => hiff.2 ⟨hs.1, fun _ => hs.2⟩⟩
      | unlink path => exact (h.unlinkResult (fsUnlink_ok h.toWf hr)).1
      | rmdir path => exact (h.rmdirResult (fsRmdir_ok h.toWf hr)).1
      | rename | chmod | utime | truncate | write => exact ha.elim
    · cases a with
      | mknod path mode => exact (h.mknodResult (fsMknod_ok h.toWf hr)).2.1 h0
      | mkdir path mode => exact (h.mknodResult (fsMkdir_ok h.toWf hr)).2.1 h0
      | unlink path => exact (h.unlinkResult (fsUnlink_ok h.toWf hr)).2.1 h0
      | rmdir path => exact (h.rmdirResult (fsRmdir_ok h.toWf hr)).2.1 h0
      | rename | chmod | utime | truncate | write => exact ha.elim

theorem Call.OnNames.onTree (ha : a.OnNames) : a.OnTree := by
  cases a with
  | mknod | mkdir | unlink | rmdir => trivial
  | rename | chmod | utime | truncate | write => exact ha.elim

/-- The simulation. -/
theorem simulation (g : Layout) : Simulation (σ := FS g) Gives TreeStep Lookups
    (fun a => a.OnNames ∧ a.Proper) Represents where
  observed := fun h => h.lookups
  returns := fun {s M a} h ha => by
    obtain ⟨⟨r, s'⟩, hr⟩ := h.exec_returns ⟨0, 0, 0⟩ (Call.OnNames.onTree ha.1) ha.2
    exact ⟨r, s', _, hr⟩
  matched := fun h ha hr => h.matched ha.1 hr

/-- **The directories refine the tree of names.**  For every list of calls on a new image
with room for 64 inodes, the model follows. -/
theorem follows_of_fresh {n : ℕ} (h : Formattable n) (t : UInt32) (hino : 64 ≤ (layout h).numInodes)
    (calls : List Call) (hcalls : ∀ a ∈ calls, a.OnNames ∧ a.Proper) :
    Follows Gives TreeStep Lookups (fresh h t) NameTree.root calls :=
  (simulation (layout h)).follows
    ⟨wellFormed_fresh h t hino, named_fresh h t, agrees_fresh h t⟩ hcalls

/-- `mkdir /a`, `mknod /a/b`, `unlink /a/b`, `rmdir /a`. -/
def upAndDown : List Call :=
  [.mkdir pathA 0x1ED, .mknod pathAB 0x81A4, .unlink pathAB, .rmdir pathA]

/-- A directory and a file in it, made and removed. -/
theorem follows_of_upAndDown :
    Follows Gives TreeStep Lookups (fresh formattable_256 0) NameTree.root upAndDown := by
  refine follows_of_fresh formattable_256 0 (by decide) upAndDown fun a ha => ?_
  simp only [upAndDown, List.mem_cons, List.not_mem_nil, or_false] at ha
  rcases ha with rfl | rfl | rfl | rfl
  · exact ⟨show fileType 0x1ED = 0 by decide, by decide +kernel⟩
  · exact ⟨show fileType 0x81A4 = S_IFREG by decide, by decide +kernel⟩
  · exact ⟨trivial, by decide +kernel⟩
  · exact ⟨trivial, by decide +kernel⟩

end FS

end Fsx600
