import Fsx600.Properties.Backing
import Fsx600.Properties.Extending
import Fsx600.Properties.Chunks
import Fsx600.Properties.Remounting
import Fsx600.Properties.NamesTaken

/-!
# The file system is a store of objects

All nine calls against `Store.exec`.  Within the limits that `Admits` sets, a call returns what the
store returns, whatever went before it, and leaves a state that backs the store that is left.  The
limits are on renames, truncations and writes: no shorter new name, and none that a stale slot
holds; no truncation of a file with blocks of pointers; and writes at the end of a file, as long as
the disk has room and the level-1 blocks that are taken are clean.

So the codes of any run are those of the run of the store, with remounts anywhere between the
calls; and after it `fs_getattr`, `fs_readdir` and `fs_read` show what the store has
(`store_of_events`).
-/

namespace Fsx600

open Checked Function Mkfs

namespace FS

variable {g : Layout} {s t : FS g} {c : Context} {a : Call} {path : Path} {i len offset : ℕ} {r : ℤ}
  {N : NameTree} {M : Store}

/-! ## The limits -/

/-- A write past the end; or one at the end that has room and takes no level-1 block with
leftovers. -/
def AppendFits (s : FS g) (len offset i : ℕ) : Prop :=
  (s.inodes i).size.toInt < offset ∨ (s.inodes i).size.toInt = offset ∧ 0 < len ∧
    offset + len ≤ 65798 * 1024 ∧
    (s.needs i (65798 - offset / 1024) (offset / 1024) offset len).length ≤ s.freeCount ∧
    s.TableSafe i offset len

instance (s : FS g) (len offset i : ℕ) : Decidable (s.AppendFits len offset i) :=
  inferInstanceAs (Decidable (_ ∨ _ ∧ _ ∧ _ ∧ _ ∧ _))

/-- The new name is no shorter than the old one, and no stale slot holds it. -/
def RenameFits (s : FS g) (srcPath dstPath : Path) : Prop :=
  ∀ new ∈ dstPath.tokens.getLast?, (∀ old ∈ srcPath.tokens.getLast?, old.length ≤ new.length) ∧
    ∀ p ∈ (s.walk 1 dstPath.tokens.dropLast).getRight?, ∀ k < 32,
      (s.entry p k).named new = true → (s.entry p k).valid = true

instance (s : FS g) (srcPath dstPath : Path) : Decidable (s.RenameFits srcPath dstPath) :=
  inferInstanceAs (Decidable (∀ new ∈ dstPath.tokens.getLast?, _ ∧ _))

/-- What a call has to meet. -/
def Admits (s : FS g) (a : Call) : Prop :=
  a.Proper ∧ match a with
  | .mknod _ mode => fileType mode = S_IFREG
  | .mkdir _ mode => fileType mode = 0 ∧ 0 < s.freeCount
  | .rename srcPath dstPath => s.RenameFits srcPath dstPath
  | .chmod path mode => s.ModeSafe path mode
  | .truncate path len => s.TruncateSafe path len
  | .write path _ len offset => s.OfFile path (s.AppendFits len offset)
  | .unlink _ | .rmdir _ | .utime _ _ => True

instance (s : FS g) : (a : Call) → Decidable (s.Admits a)
  | .mknod path mode => inferInstanceAs (Decidable (Call.Proper (.mknod path mode) ∧ _ = _))
  | .mkdir path mode => inferInstanceAs (Decidable (Call.Proper (.mkdir path mode) ∧ _ = _ ∧ _ < _))
  | .rename srcPath dstPath =>
    inferInstanceAs (Decidable (Call.Proper (.rename srcPath dstPath) ∧ s.RenameFits srcPath dstPath))
  | .chmod path mode => inferInstanceAs (Decidable (Call.Proper (.chmod path mode) ∧ s.ModeSafe path mode))
  | .truncate path len =>
    inferInstanceAs (Decidable (Call.Proper (.truncate path len) ∧ s.TruncateSafe path len))
  | .write path buf len offset => inferInstanceAs (Decidable (Call.Proper (.write path buf len offset) ∧
      s.OfFile path (s.AppendFits len offset)))
  | .unlink path => inferInstanceAs (Decidable (Call.Proper (.unlink path) ∧ True))
  | .rmdir path => inferInstanceAs (Decidable (Call.Proper (.rmdir path) ∧ True))
  | .utime path modtime => inferInstanceAs (Decidable (Call.Proper (.utime path modtime) ∧ True))

/-- The code is what the store returned, and the state backs the store that is left. -/
def Answered (t : FS g) (r : ℤ) (x : ℤ × Store) : Prop := r = x.1 ∧ ∃ N, Backs t N x.2

section Calls

variable (h : Backs s N M)
include h

theorem Backs.answered {r : ℤ} : Answered s r (r, M) := ⟨rfl, N, h⟩

/-- A path that leads nowhere. -/
theorem Backs.missing {e : ℤ} (hr : s.resolve 1 path.tokens = .inl e) (f : Object → ℤ × Store) :
    Answered s e (M.withObject path.tokens f) := by
  rw [Store.withObject_of_none (h.of_resolve_error hr), h.error_eq hr]
  exact h.answered

omit h in
/-- A walk to a parent that fails is a walk that fails. -/
theorem resolve_of_walk_error {e : ℤ} (hne : path.tokens ≠ [])
    (hw : s.walk 1 path.tokens.dropLast = .inl e) : s.resolve 1 path.tokens = .inl e := by
  rw [← List.dropLast_append_getLast hne, resolve_append, hw]
  rfl

theorem Backs.writeInodeMap : Backs s.writeInodeMap N M :=
  h.of_spared h.toRepresents.writeInodeMap rfl fun _ hk => spared_writeInodeMap h.toWf hk

/-! ## Creating -/

theorem Backs.created {mode : UInt32} {p j n : ℕ} {last : Name} {fresh : Option ℕ}
    (hp : s.Parent path p last) (hc : Created c mode p j n last fresh s t) :
    Backs t (update N path.tokens (some (n, sIsDir mode))) (update M path.tokens (some ⟨mode, []⟩)) := by
  have hspared : ∀ k, s.inodeMap k = true → Spared k s t := fun k hk => hc.spared h.toWf hk
  refine ⟨⟨⟨h.toWf.created hc, h.inodes_ge⟩, h.named.created h.toWf hc, h.agrees.created h.toWf h.named hp hc⟩,
    fun q => ?_, fun k hk hf => ?_⟩
  · by_cases hq : q = path.tokens
    · subst hq
      rw [update_self, update_self, Option.map_some, hc.object]
    · rw [update_of_ne hq, update_of_ne hq, h.objects]
      cases hN : N q with
      | none => rfl
      | some x =>
        have hnode := h.tree.arborescent.node_of_path ((h.agrees q x.1 x.2).1 hN).1
        rw [Option.map_some, Option.map_some, (hspared x.1 hnode.1).object]
  · by_cases hkn : k = n
    · subst hkn
      exact hc.exact hf
    · rw [hc.inodeMap, update_of_ne hkn] at hk
      have hsp := hspared k hk
      exact hsp.exact (hsp.isDir.symm.trans hf) (h.exact k hk (hsp.isDir.symm.trans hf))

theorem Backs.mknod (hp : path.Proper) {mode : UInt32} (hroom : sIsDir mode = true → ∃ b, s.Free b)
    (hr : s.fsMknod c path mode = .ok (r, t)) : Answered t r (M.create path.tokens ⟨mode, []⟩) := by
  -- a full disk or directory is found only if the name is missing
  have hmissing : ∀ {p last}, s.Parent path p last → r = -ENOSPC → M path.tokens = none := by
    intro p last hpar hcode
    cases hc : s.child p last with
    | inl e => exact h.of_resolve_error (hpar.resolve.trans hc)
    | inr i =>
      have heexist := h.indexed.fsMknod_eexist (c := c) hp.small hpar hc mode
      have hcode' := (Prod.mk.inj (Except.ok.inj (heexist.symm.trans hr))).1
      exact absurd (hcode'.trans hcode) (by decide)
  cases fsMknod_ok h.toWf hr with
  | badPath he hw =>
    have hres := resolve_of_walk_error hp.ne_nil hw
    rw [Store.create_of_not_isDir (h.of_resolve_error hres) (h.not_isDir_of_walk hw), h.error_eq hres]
    exact h.answered
  | «exists» hpar hi =>
    rw [Store.create_of_isSome (by rw [h.of_resolve (hpar.resolve.trans hi)]; rfl)]
    exact h.answered
  | noInode hpar hfull =>
    rw [Store.create_of_full (hmissing hpar rfl) (h.of_parent hpar)]
    · exact h.answered
    · rw [h.room_iff hpar]
      rintro ⟨⟨i, hi, hclear⟩, -⟩
      exact Bool.false_ne_true (hclear.symm.trans (hfull i hi))
  | noSlot hpar hfull =>
    rw [Store.create_of_full (hmissing hpar rfl) (h.of_parent hpar)]
    · exact h.writeInodeMap.answered
    · rw [h.room_iff hpar]
      rintro ⟨-, j, hj, hclear⟩
      exact Bool.false_ne_true (hclear.symm.trans (hfull j hj))
  | noBlock hpar hdir hfull =>
    obtain ⟨b, hb⟩ := hroom hdir
    exact absurd hb (hfull b)
  | created hpar hc =>
    rw [Store.create_of_room (h.of_resolve_error (hpar.resolve.trans hc.missing)) (h.of_parent hpar)]
    · exact ⟨rfl, _, h.created hpar hc⟩
    · exact (h.room_iff hpar).2 ⟨⟨_, hc.inode_lt, hc.inode_free⟩, _, hc.slot_lt, hc.slot_free⟩

/-! ## Removing -/

theorem Backs.removed {p j : ℕ} {e : Dirent} (hr : s.resolve 1 path.tokens = .inr i)
    (hrem : Removed p j i e s t) : Backs t (update N path.tokens none) (update M path.tokens none) := by
  have hi := (h.named.resolve_iff h.toWf fun _ ht => path.nul_notMem_of_mem_tokens ht).1 hr
  refine ⟨h.toRepresents.removed hr hrem, fun q => ?_, fun k hk hf => ?_⟩
  · by_cases hq : q = path.tokens
    · rw [hq, update_self, update_self]
      rfl
    · rw [update_of_ne hq, update_of_ne hq, h.objects]
      cases hN : N q with
      | none => rfl
      | some x =>
        have hx := ((h.agrees q x.1 x.2).1 hN).1
        have hne : x.1 ≠ i := by
          rintro rfl
          exact hq (h.tree.arborescent.path_unique hx hi)
        have hnode := h.tree.arborescent.node_of_path hx
        rw [Option.map_some, Option.map_some, (hrem.spared h.toWf hnode.1 hne).object]
  · obtain ⟨hk, hki⟩ := (hrem.inodeMap_iff k).1 hk
    have hsp := hrem.spared h.toWf hk hki
    exact hsp.exact (hsp.isDir.symm.trans hf) (h.exact k hk (hsp.isDir.symm.trans hf))

theorem Backs.unlink (hr : s.fsUnlink c path = .ok (r, t)) : Answered t r (M.exec (.unlink path)) := by
  have hres := fsUnlink_ok h.toWf hr
  cases hres with
  | badPath hbad => exact h.missing hbad _
  | isDir hi hd =>
    rw [Store.exec, Store.withObject_of_some (h.of_resolve hi), isDir_object, if_pos hd]
    exact h.answered
  | removed hp hi hd hrem =>
    have hi := hp.resolve.trans hi
    rw [Store.exec, Store.withObject_of_some (h.of_resolve hi), if_neg (by simp [isDir_object, hd])]
    exact ⟨rfl, _, h.removed hi hrem⟩

theorem Backs.rmdir (hr : s.fsRmdir path = .ok (r, t)) : Answered t r (M.exec (.rmdir path)) := by
  have hres := fsRmdir_ok h.toWf hr
  have hiff := (h.toRepresents.rmdirResult hres).1
  rw [← h.children_eq] at hiff
  cases hres with
  | badPath hbad => exact h.missing hbad _
  | notDir hi hd =>
    rw [Store.exec, Store.withObject_of_some (h.of_resolve hi), isDir_object, if_pos hd]
    exact h.answered
  | notEmpty hi hd hj hv =>
    have hdir := h.agrees.of_resolve h.toWf h.named hi
    rw [hd] at hdir
    have hsome : (M.children path.tokens).Nonempty := by
      by_contra hempty
      exact absurd (hiff.2 ⟨⟨_, hdir⟩, Set.not_nonempty_iff_eq_empty.1 hempty⟩) (by decide)
    rw [Store.exec, Store.withObject_of_some (h.of_resolve hi), if_neg (by simp [isDir_object, hd]), if_pos hsome]
    exact h.answered
  | removed hp hi hd hrem =>
    have hi := hp.resolve.trans hi
    have hempty := (hiff.1 rfl).2
    rw [Store.exec, Store.withObject_of_some (h.of_resolve hi), if_neg (by simp [isDir_object, hd]),
      if_neg (Set.not_nonempty_iff_eq_empty.2 hempty)]
    exact ⟨rfl, _, h.removed hi hrem⟩

end Calls

/-! ## Renaming -/

section Rename

variable {srcPath dstPath : Path} {p : ℕ} {old new : Name}

/-- A path that leads somewhere has a parent. -/
theorem exists_parent (hne : path.tokens ≠ []) (hr : s.resolve 1 path.tokens = .inr i) :
    ∃ p last, s.Parent path p last ∧ s.child p last = .inr i := by
  have htokens := List.dropLast_append_getLast hne
  have hr' := hr
  rw [← htokens, resolve_append] at hr'
  cases hw : s.walk 1 path.tokens.dropLast with
  | inl e =>
    rw [hw] at hr'
    exact absurd hr' (by simp)
  | inr p =>
    have hp : s.Parent path p (path.tokens.getLast hne) := ⟨hw, List.getLast?_eq_some_getLast hne⟩
    exact ⟨p, _, hp, hp.resolve.symm.trans hr⟩

theorem Indexed.fsRename_of_error (h : Indexed s) (hp : srcPath.Small) (hp' : dstPath.Small) {e : ℤ}
    (hr : s.resolve 1 srcPath.tokens = .inl e) : s.fsRename c srcPath dstPath = .ok (e, s) := by
  obtain ⟨⟨pi, buf⟩, hpi⟩ := h.getParentInum_returns hp
  obtain ⟨⟨pi', buf'⟩, hpi'⟩ := h.getParentInum_returns hp'
  obtain ⟨ci, hci⟩ := h.translatePathToInum_returns hp.1
  obtain rfl := translatePathToInum_ok hci
  rw [fsRename, hpi, ok_bind]
  dsimp only
  rw [hci, ok_bind, hpi', ok_bind]
  dsimp only
  rw [hr, code_inl, if_pos (resolve_error hr).symm]

/-- Two names of one directory. -/
theorem Indexed.fsRename_ne_einval (h : Indexed s) (hp : srcPath.Small) (hp' : dstPath.Small)
    (hpar : s.Parent srcPath p old) (hpar' : s.Parent dstPath p new) (hi : s.child p old = .inr i)
    (hr : s.fsRename c srcPath dstPath = .ok (r, t)) : r ≠ -EINVAL := by
  rw [fsRename, h.getParentInum_eq hp hpar, ok_bind] at hr
  dsimp only at hr
  rw [h.translatePathToInum_eq hp hpar, hi, code_inr, ok_bind, h.getParentInum_eq hp' hpar', ok_bind] at hr
  dsimp only at hr
  rw [if_neg (natCast_not_error i), if_neg (not_not.2 rfl), bind_eq_ok] at hr
  obtain ⟨pino, -, hr⟩ := hr
  rw [bind_eq_ok] at hr
  obtain ⟨block, -, hr⟩ := hr
  rw [bind_eq_ok] at hr
  obtain ⟨name, -, hr⟩ := hr
  split at hr
  · obtain ⟨rfl, -⟩ := Prod.mk.inj (Except.ok.inj hr)
    decide
  · rw [bind_eq_ok] at hr
    obtain ⟨⟨u, block⟩, -, hr⟩ := hr
    dsimp only at hr
    rw [bind_eq_ok] at hr
    obtain ⟨v, -, hr⟩ := hr
    obtain ⟨rfl, -⟩ := Prod.mk.inj (Except.ok.inj hr)
    decide

variable (h : Backs s N M)
include h

theorem Backs.renamed {j : ℕ} (hp : s.Parent srcPath p old) (hp' : s.Parent dstPath p new)
    (hj : findEntry (s.dirBlock p) old = some j) (hlen : old.length ≤ new.length)
    (hren : Renamed c p j i new s t) : Backs t (LabelledTree.move N srcPath.tokens dstPath.tokens)
      (LabelledTree.move M srcPath.tokens dstPath.tokens) := by
  have hold : 0 ∉ old := srcPath.nul_notMem_of_mem_tokens hp.mem
  have hstored : overwrite old new = new := overwrite_of_le hlen
  have hnamed : Named t := h.named.renamed h.toWf hold hj hren fun k hk _ hn => by
    rw [hstored, hren.unused k hk] at hn
    exact absurd hn Bool.false_ne_true
  have hspared : ∀ k, s.inodeMap k = true → Spared k s t := fun k hk => hren.spared h.toWf hk
  have hobjects : M = fun q => (N q).map fun x => t.object x.1 := by
    funext q
    rw [h.objects]
    cases hN : N q with
    | none => rfl
    | some x =>
      have hnode := h.tree.arborescent.node_of_path ((h.agrees q x.1 x.2).1 hN).1
      rw [Option.map_some, Option.map_some, (hspared x.1 hnode.1).object]
  refine ⟨⟨⟨h.toWf.renamed hren, h.inodes_ge⟩, hnamed,
    h.agrees.renamed h.toWf h.named hold hj hstored hren hp hp'⟩, fun q => ?_, fun k hk hf => ?_⟩
  · rw [hobjects]
    exact LabelledTree.move_map N _ _ _ q
  · rw [hren.inodeMap] at hk
    have hsp := hspared k hk
    exact hsp.exact (hsp.isDir.symm.trans hf) (h.exact k hk (hsp.isDir.symm.trans hf))

theorem Backs.rename (hp : srcPath.Proper) (hp' : dstPath.Proper) (hfits : s.RenameFits srcPath dstPath)
    (hr : s.fsRename c srcPath dstPath = .ok (r, t)) :
    Answered t r (M.exec (.rename srcPath dstPath)) := by
  cases hres : s.resolve 1 srcPath.tokens with
  | inl e =>
    have heq := h.indexed.fsRename_of_error (c := c) hp.small hp'.small hres
    obtain ⟨rfl, rfl⟩ := Prod.mk.inj (Except.ok.inj (heq.symm.trans hr))
    exact h.missing hres _
  | inr i =>
    obtain ⟨p, old, hpar, hi⟩ := exists_parent hp.ne_nil hres
    rw [Store.exec, Store.withObject_of_some (h.of_resolve hres)]
    by_cases hdir : srcPath.tokens.dropLast = dstPath.tokens.dropLast
    · have hpar' : s.Parent dstPath p (dstPath.tokens.getLast hp'.ne_nil) :=
        ⟨hdir ▸ hpar.walk, List.getLast?_eq_some_getLast hp'.ne_nil⟩
      obtain ⟨hlen, hstale⟩ := hfits _ hpar'.last
      rw [if_neg (not_not.2 hdir)]
      have hne := h.indexed.fsRename_ne_einval hp.small hp'.small hpar hpar' hi hr
      cases fsRename_ok h.toWf hr with
      | badPath hbad => exact absurd (hres.symm.trans hbad) (by simp)
      | otherDir => exact absurd rfl hne
      | @taken p' k old' new' hq hq' hk hn =>
        obtain rfl := Sum.inr.inj (hpar'.walk.symm.trans hq'.walk)
        obtain rfl := Option.some.inj (hpar'.last.symm.trans hq'.last)
        have hvalid := hstale p (by rw [hpar'.walk]; rfl) k hk hn
        obtain ⟨x, hx⟩ := child_isInr_iff.2 ⟨k, hk, hvalid, hn⟩
        rw [if_pos (by rw [h.of_resolve (hpar'.resolve.trans hx)]; rfl)]
        exact h.answered
      | @renamed p' j i' old' new' _ hq hq' hi' hj hren =>
        obtain rfl := Sum.inr.inj (hpar'.walk.symm.trans hq'.walk)
        obtain rfl := Option.some.inj (hpar'.last.symm.trans hq'.last)
        obtain rfl := Option.some.inj (hpar.last.symm.trans hq.last)
        have hnone : M dstPath.tokens = none := by
          cases hc : s.child p (dstPath.tokens.getLast hp'.ne_nil) with
          | inl e => exact h.of_resolve_error (hpar'.resolve.trans hc)
          | inr x =>
            obtain ⟨k, hk, -, hn⟩ := child_isInr_iff.1 ⟨x, hc⟩
            exact absurd (hn.symm.trans (hren.unused k hk)) (by simp)
        rw [if_neg (by simp [hnone])]
        exact ⟨rfl, _, h.renamed hpar hpar' hj (hlen old hpar.last) hren⟩
    · rw [if_pos hdir]
      have hother : ∀ {p' old' new'}, s.Parent srcPath p' old' → s.Parent dstPath p' new' → False := by
        intro p' old' new' hq hq'
        have htokens := h.named.held.tokens_of_parent h.toWf hq hq'
        rw [htokens, List.dropLast_concat] at hdir
        exact hdir rfl
      cases fsRename_ok h.toWf hr with
      | badPath hbad => exact absurd (hres.symm.trans hbad) (by simp)
      | otherDir => exact h.answered
      | taken hq hq' => exact (hother hq hq').elim
      | renamed hq hq' => exact (hother hq hq').elim

end Rename

/-! ## Changing one object -/

/-- The directories after a change of an inode. -/
theorem Represents.setInode (h : Represents s N) {ino : Inode} (hm : sIsDir ino.mode = s.isDir i)
    (hd : ino.direct = (s.inodes i).direct) (h1 : ino.indir1 = (s.inodes i).indir1)
    (h2 : ino.indir2 = (s.inodes i).indir2) : Represents (s.setInode i ino).writeAllInodes N :=
  h.of_dirBlock (h.toWf.touch hm hd h1 h2) rfl (isDir_touch hm) fun _ hdir =>
    h.blocks.dirBlock_touch hd hdir

section Changes

variable (h : Backs s N M)
include h

theorem Backs.chmod {mode : UInt32} (hmode : s.ModeSafe path mode)
    (hr : s.fsChmod c path mode = .ok (r, t)) : Answered t r (M.exec (.chmod path mode)) := by
  cases fsChmod_ok hr with
  | badPath hbad => exact h.missing hbad _
  | @touched i hi =>
    have halloc := h.alloc_of_resolve hi
    have hm := hmode i hi
    have hpath := (h.named.resolve_iff h.toWf fun _ ht => path.nul_notMem_of_mem_tokens ht).1 hi
    generalize hino : ({ s.inodes i with mode := chmodMode (s.inodes i).mode mode, ctime := c.now } : Inode) = ino
    have hsize : ino.size = (s.inodes i).size := by rw [← hino]
    have hd : ino.direct = (s.inodes i).direct := by rw [← hino]
    have h1 : ino.indir1 = (s.inodes i).indir1 := by rw [← hino]
    have h2 : ino.indir2 = (s.inodes i).indir2 := by rw [← hino]
    have hm : sIsDir ino.mode = s.isDir i := by rw [← hino, hm]
    have hmodes : ino.mode = chmodMode (s.inodes i).mode mode := by rw [← hino]
    have hintact : s.isDir i = false → Intact i s (s.setInode i ino).writeAllInodes :=
      fun hf => intact_setInode h.blocks halloc hsize hd h1 h2 hf
    have hobject : (s.setInode i ino).writeAllInodes.object i =
        { s.object i with mode := chmodMode (s.object i).mode mode } := by
      have hnew : ((s.setInode i ino).writeAllInodes.inodes i).mode = chmodMode (s.inodes i).mode mode := by
        rw [inodes_writeAllInodes, inodes_setInode, update_self, hmodes]
      rw [object, hnew, contents_congr (isDir_touch hm i) hintact]
      rfl
    rw [Store.exec, Store.withObject_of_some (h.of_resolve hi), ← hobject]
    refine ⟨rfl, N, h.changed (h.toRepresents.setInode hm hd h1 h2) rfl hpath (fun k hk hki => ?_) fun hf => ?_⟩
    · exact spared_setInode h.blocks hk hsize hd h1 h2 fun heq => absurd heq hki
    · have hf := (isDir_touch hm i).symm.trans hf
      exact (h.exact i halloc hf).of_intact (hintact hf)

theorem Backs.utime {modtime : UInt32} (hr : s.fsUtime path modtime = .ok (r, t)) :
    Answered t r (M.exec (.utime path modtime)) := by
  cases fsUtime_ok hr with
  | badPath hbad => exact h.missing hbad _
  | @touched i hi =>
    rw [Store.exec, Store.withObject_of_some (h.of_resolve hi)]
    exact ⟨rfl, N, h.of_spared (h.toRepresents.setInode rfl rfl rfl rfl) rfl fun k hk =>
      spared_setInode h.blocks hk rfl rfl rfl rfl fun _ => rfl⟩

theorem Backs.truncate {len : ℤ} (hsafe : s.TruncateSafe path len)
    (hr : s.fsTruncate path len = .ok (r, t)) : Answered t r (M.exec (.truncate path len)) := by
  cases h.fsTruncate_ok hr with
  | badLength hlen =>
    rw [Store.exec, if_pos hlen]
    exact h.answered
  | badPath hbad =>
    rw [Store.exec]
    split
    · next hlen =>
      rw [fsTruncate, if_pos hlen] at hr
      obtain ⟨rfl, -⟩ := Prod.mk.inj (Except.ok.inj hr)
      exact h.answered
    · exact h.missing hbad _
  | isDir hi hd =>
    rw [Store.exec]
    split
    · next hlen =>
      rw [fsTruncate, if_pos hlen] at hr
      exact absurd (Prod.mk.inj (Except.ok.inj hr)).1 (by decide)
    · rw [Store.withObject_of_some (h.of_resolve hi), isDir_object, if_pos hd]
      exact h.answered
  | @truncated i _ hlen hi hd htr =>
    subst hlen
    have halloc := h.alloc_of_resolve hi
    have hpath := (h.named.resolve_iff h.toWf fun _ ht => path.nul_notMem_of_mem_tokens ht).1 hi
    have hno := hsafe rfl i hi hd
    have hold := h.exact i halloc hd
    have hexact : t.Exact i := htr.exact h.toWf halloc hd hold hno
      (directAt_of_fsTruncate hi hd (fun _ h0 _ => hold.directAt_eq_zero h0) hr)
    rw [Store.exec, if_neg (not_not.2 rfl), Store.withObject_of_some (h.of_resolve hi), isDir_object,
      if_neg (by simp [hd]), ← htr.object hd]
    refine ⟨rfl, N, h.changed ?_ htr.inodeMap hpath (fun k hk hki => htr.spared h.blocks hk hki)
      fun _ => hexact⟩
    exact h.toRepresents.of_dirBlock (h.toWf.truncated halloc hd htr hno) htr.inodeMap htr.isDir
      fun _ hdir => htr.dirBlock h.toWf hd hdir

end Changes

/-! ## Writing -/

/-- A path that resolves goes through directories. -/
theorem Wf.throughDirs (hwf : Wf s) {d : ℕ} {q : List Name} (hd : q ≠ [] → s.AllocDir d)
    (hr : s.resolve d q = .inr i) : s.ThroughDirs d q := by
  induction q generalizing d with
  | nil => trivial
  | cons n q ih =>
    have hdd := hd (List.cons_ne_nil _ _)
    refine ⟨hdd, fun j hj => ?_⟩
    have he := edge_of_findEntry hdd hj
    rw [resolve, hj] at hr
    dsimp only at hr
    split at hr
    · exact absurd hr (by simp)
    · next hdir =>
      refine ih (fun hne => ⟨(hwf.edge_child he).1, ?_⟩) hr
      rw [hwf.edge_isDir he] at hdir
      simpa [hne] using hdir

theorem Indexed.fsGetattr_of_error (h : Indexed s) (hp : path.tokens.length ≤ 63) {e : ℤ}
    (hr : s.resolve 1 path.tokens = .inl e) : s.fsGetattr path = .ok (.inl e) := by
  obtain ⟨o, ho⟩ := h.fsGetattr_returns hp
  rcases fsGetattr_ok ho with ⟨e', he', rfl⟩ | ⟨i, hi, -⟩
  · rw [ho, Sum.inl.inj (hr.symm.trans he')]
  · exact absurd (hr.symm.trans hi) (by simp)

/-- What a write leaves alone: the directories, the modes, and every inode but that of the file. -/
structure Apart (i : ℕ) (s t : FS g) : Prop where
  inodeMap : t.inodeMap = s.inodeMap
  mode : ∀ k, (t.inodes k).mode = (s.inodes k).mode
  dirBlock : ∀ d, s.AllocDir d → t.dirBlock d = s.dirBlock d
  spared : ∀ k, s.inodeMap k = true → k ≠ i → Spared k s t

theorem Apart.refl (i : ℕ) (s : FS g) : Apart i s s :=
  ⟨rfl, fun _ => rfl, fun _ _ => rfl, fun k _ _ => .refl k s⟩

theorem Apart.isDir (h : Apart i s t) (k : ℕ) : t.isDir k = s.isDir k := by
  rw [FS.isDir, h.mode, FS.isDir]

theorem Apart.allocDir (h : Apart i s t) {d : ℕ} (hd : s.AllocDir d) : t.AllocDir d := by
  rw [AllocDir, h.inodeMap, h.isDir]
  exact hd

theorem Apart.stored {u : FS g} (h : Apart i s t) (hs : t.SoundBlocks) {σ : Slot} {p : UInt32} {b : Block}
    {n : ℕ} (hstored : Stored i σ p b n t u) : Apart i s u := by
  refine ⟨hstored.inodeMap.trans h.inodeMap, fun k => ?_, fun d hd => ?_, fun k hk hki => ?_⟩
  · rw [← h.mode k]
    rcases eq_or_ne k i with rfl | hki
    · exact hstored.mode
    · rw [hstored.inodes k hki]
  · rw [hstored.dirBlock hs (h.allocDir hd), h.dirBlock d hd]
  · exact (h.spared k hk hki).trans (hstored.spared hs (by rw [h.inodeMap, hk]) hki)

theorem Apart.touch (h : Apart i s t) (hs : t.SoundBlocks) (now : UInt32) (l : ℕ) :
    Apart i s (t.setInode l { t.inodes l with mtime := now }).writeAllInodes := by
  refine ⟨h.inodeMap, fun k => ?_, fun d hd => ?_, fun k hk hki => ?_⟩
  · rw [← h.mode k]
    exact field_update Inode.mode (by rfl) k
  · rw [hs.dirBlock_touch (by rfl) (h.allocDir hd), h.dirBlock d hd]
  · exact (h.spared k hk hki).trans
      (spared_setInode hs (by rw [h.inodeMap, hk]) rfl rfl rfl rfl fun _ => rfl)

/-- A write that is safe. -/
theorem apart_of_fsWrite (hwf : Wf s) {buf : ℕ → UInt8} (hr : s.resolve 1 path.tokens = .inr i)
    (hsafe : s.WriteSafe path len offset) (hw : s.fsWrite c path buf len offset = .ok (r, t)) :
    Wf t ∧ Apart i s t := by
  refine (hwf.fsWrite_ok hw).invariant (P := Apart i s) hwf hsafe (.refl i s) ?_ ?_
  · intro k hk _ u v σ p b m hwf' hP hstored
    obtain rfl := Sum.inr.inj (hr.symm.trans hk)
    exact hP.stored hwf'.blocks hstored
  · intro u k hwf' hP
    exact hP.touch hwf'.blocks c.now k

theorem Extended.exact {n : ℕ} {buf : ℕ → UInt8} (h : Extended i n buf len s t) : t.Exact i := by
  refine ⟨by rw [h.size]; omega, fun y => ?_⟩
  rw [h.mapped, h.size]
  exact Nat.cast_lt.symm

/-- The bytes of a file after an append. -/
theorem Extended.object {n : ℕ} {buf : ℕ → UInt8} (h : Extended i n buf len s t) (hf : s.isDir i = false)
    (hsize : (s.inodes i).size.toInt = n) (hmode : (t.inodes i).mode = (s.inodes i).mode) :
    t.object i = { s.object i with
      bytes := (s.object i).bytes.take n ++ (List.range len).map buf ++ (s.object i).bytes.drop (n + len) } := by
  have hf' : t.isDir i = false := by rw [isDir, hmode, ← hf, isDir]
  have hlength : (s.object i).bytes.length = n := by
    rw [length_bytes hf, hsize, Int.toNat_natCast]
  have hbytes : (t.object i).bytes = (s.object i).bytes ++ (List.range len).map buf := by
    rw [bytes_of_file hf', bytes_of_file hf, h.size, hsize, Int.toNat_natCast, Int.toNat_natCast,
      List.range_add, List.map_append, List.map_map]
    congr 1
    · exact List.map_congr_left fun x hx => by rw [h.old x (List.mem_range.1 hx)]
    · refine List.map_congr_left fun x hx => ?_
      rw [Function.comp_apply, h.new x (List.mem_range.1 hx)]
      rfl
  rw [List.take_of_length_le hlength.le, List.drop_of_length_le (by omega), List.append_nil, ← hbytes]
  rw [FS.object, hmode]
  rfl

/-- A write returns, whatever the path leads to. -/
theorem Backs.write (h : Backs s N M) (hp : path.Proper) {buf : ℕ → UInt8}
    (hfits : s.OfFile path (s.AppendFits len offset)) :
    ∃ r t, s.fsWrite c path buf len offset = .ok (r, t) ∧
      Answered t r (M.exec (.write path buf len offset)) := by
  cases hr : s.resolve 1 path.tokens with
  | inl e =>
    refine ⟨e, s, ?_, h.missing hr _⟩
    rw [fsWrite, h.indexed.fsGetattr_of_error hp.small.1 hr]
    rfl
  | inr i =>
    have halloc := h.alloc_of_resolve hr
    have hfinds := h.finds hp.small.1 hr
    rw [Store.exec, Store.withObject_of_some (h.of_resolve hr), isDir_object]
    cases hd : s.isDir i with
    | true =>
      refine ⟨-EISDIR, s, ?_, h.answered⟩
      rw [fsWrite, hfinds, ok_bind]
      dsimp only [fsSetSuperbockAttrs]
      rw [hfinds.inode_eq, ok_bind]
      exact if_pos hd
    | false =>
      have hold := h.exact i halloc hd
      have hnonneg := hold.nonneg
      have hmode : ¬ sIsDir (s.inodes i).mode = true := Bool.eq_false_iff.1 hd
      rw [if_neg (by simp), length_bytes hd]
      rcases hfits i hr hd with hpast | ⟨hsize, hlen, hend, hfree, hsafe⟩
      · refine ⟨-EINVAL, s, ?_, ?_⟩
        · rw [fsWrite, hfinds, ok_bind]
          dsimp only [fsSetSuperbockAttrs]
          rw [hfinds.inode_eq, ok_bind, if_neg hmode, if_pos hpast]
        · rw [if_pos (by omega)]
          exact h.answered
      · have hmapped : ∀ y, s.pointer i (dataSlot y) ≠ 0 ↔ 1024 * y < offset := fun y => by
          rw [hold.mapped, hsize]
          exact Nat.cast_lt
        have hdirs := h.toWf.throughDirs (fun _ => h.allocDir_one) hr
        obtain ⟨t, ht, hext⟩ := appends_of_tableSafe h.blocks halloc hd hsize hmapped hlen hend hfree hsafe
          h.sized hfinds hdirs c buf
        have hwrite : s.WriteSafe path len offset := fun i' hi' _ _ => by
          obtain rfl := Sum.inr.inj (hr.symm.trans hi')
          exact hsafe
        obtain ⟨hwf, hapart⟩ := apart_of_fsWrite h.toWf hr hwrite ht
        have hpath := (h.named.resolve_iff h.toWf fun _ ht => path.nul_notMem_of_mem_tokens ht).1 hr
        refine ⟨len, t, ht, ?_⟩
        rw [if_neg (by omega), ← hext.object hd hsize (hapart.mode i)]
        exact ⟨rfl, N, h.changed (h.toRepresents.of_dirBlock hwf hapart.inodeMap hapart.isDir hapart.dirBlock)
          hapart.inodeMap hpath hapart.spared fun _ => hext.exact⟩

/-! ## Every call, and runs -/

/-- **One call** returns what the store returns. -/
theorem Backs.call (h : Backs s N M) (hfit : s.Admits a) :
    ∃ r t, s.exec c a = .ok (r, t) ∧ Answered t r (M.exec a) := by
  have hreturns : ∀ {x : Except Fault (ℤ × FS g)} {y : ℤ × Store}, Returns x →
      (∀ r t, x = .ok (r, t) → Answered t r y) → ∃ r t, x = .ok (r, t) ∧ Answered t r y := by
    rintro x y ⟨⟨r, t⟩, hx⟩ hy
    exact ⟨r, t, hx, hy r t hx⟩
  obtain ⟨hp, hfit⟩ := hfit
  cases a with
  | mknod path mode =>
    refine hreturns (h.exec_returns c (a := .mknod path mode) trivial hp) fun r t hr => ?_
    refine h.mknod hp (fun hdir => ?_) hr
    rw [sIsDir_of_regular hfit] at hdir
    exact absurd hdir (by simp)
  | mkdir path mode =>
    refine hreturns (h.exec_returns c (a := .mkdir path mode) trivial hp) fun r t hr => ?_
    refine h.mknod hp (fun _ => ?_) hr
    by_contra hnone
    exact hfit.2.ne' (freeCount_eq_zero fun b hb => hnone ⟨b, hb⟩)
  | unlink path => exact hreturns (h.exec_returns c (a := .unlink path) trivial hp) fun r t hr => h.unlink hr
  | rmdir path => exact hreturns (h.exec_returns c (a := .rmdir path) trivial hp) fun r t hr => h.rmdir hr
  | rename srcPath dstPath =>
    refine hreturns (h.exec_returns c (a := .rename srcPath dstPath) trivial hp) fun r t hr => ?_
    exact h.rename hp.1 hp.2 hfit hr
  | chmod path mode => exact hreturns (h.indexed.fsChmod_returns hp.small.1 mode) fun r t hr => h.chmod hfit hr
  | utime path modtime =>
    exact hreturns (h.exec_returns c (a := .utime path modtime) trivial hp) fun r t hr => h.utime hr
  | truncate path len =>
    exact hreturns (h.indexed.fsTruncate_returns hp.small.1 len) fun r t hr => h.truncate hfit hr
  | write path buf len offset => exact h.write hp hfit

/-- A call within the limits is safe. -/
theorem Admits.safe (h : s.Admits a) : s.Safe a := by
  cases a with
  | chmod path mode => exact h.2
  | truncate path len => exact h.2
  | write path buf len offset =>
    intro i hi hd hle
    rcases h.2 i hi hd with hpast | hfits
    · exact absurd hle (not_le.2 hpast)
    · exact hfits.2.2.2.2
  | mknod | mkdir | unlink | rmdir | rename | utime => trivial

/-- Calls each of which is within the limits. -/
def AllAdmitted (s : FS g) (calls : List (Context × Call)) : Prop := s.AllMeet Admits calls

instance (s : FS g) (calls : List (Context × Call)) : Decidable (s.AllAdmitted calls) :=
  inferInstanceAs (Decidable (s.AllMeet Admits calls))

theorem AllAdmitted.allSafe {calls : List (Context × Call)} (h : s.AllAdmitted calls) : s.AllSafe calls := by
  induction calls generalizing s with
  | nil => trivial
  | cons x rest ih => exact ⟨Admits.safe h.1, fun r t ht => ih (h.2 r t ht)⟩

/-- **A run** returns what the store returns, call by call. -/
theorem Backs.run (h : Backs s N M) {calls : List (Context × Call)} (hfit : s.AllAdmitted calls) :
    ∃ t, s.runCalls calls = .ok ((M.execAll (calls.map Prod.snd)).1, t) ∧
      ∃ N', Backs t N' (M.execAll (calls.map Prod.snd)).2 := by
  induction calls generalizing s N M with
  | nil => exact ⟨s, rfl, N, h⟩
  | cons x rest ih =>
    obtain ⟨c, a⟩ := x
    obtain ⟨r, u, hu, rfl, N', h'⟩ := h.call (c := c) hfit.1
    obtain ⟨t, ht, hback⟩ := ih h' (hfit.2 _ u hu)
    refine ⟨t, ?_, hback⟩
    rw [runCalls, hu, ok_bind]
    dsimp only
    rw [ht]
    rfl

/-- A new image backs the store of the root alone. -/
theorem backs_fresh {n : ℕ} (h : Formattable n) (t : UInt32) (hino : 64 ≤ (layout h).numInodes) :
    Backs (fresh h t) NameTree.root Store.root := by
  have hdir : (fresh h t).isDir 1 = true := isDir_fresh h t 1
  have hroot : (fresh h t).object 1 = ⟨0x41FF, []⟩ := by
    rw [object, contents, if_pos hdir]
    rfl
  refine ⟨⟨wellFormed_fresh h t hino, named_fresh h t, agrees_fresh h t⟩, fun q => ?_, fun i hi hf => ?_⟩
  · rw [Store.root, NameTree.root]
    split
    · exact congrArg some hroot.symm
    · rfl
  · have hino : (fresh h t).inodes i = Inode.zero := by
      refine inodes_fresh_of_ne h t fun heq => ?_
      rw [isDir_fresh, heq] at hf
      exact Bool.false_ne_true hf.symm
    exact exact_of_empty (by rw [hino]; rfl) (by rw [hino]; exact ⟨rfl, rfl, rfl⟩)

end FS

end Fsx600
