import Fsx600.Spec.Truncation
import Fsx600.Spec.Writing
import Fsx600.Model.Calls

/-!
# What the operations are made of

Every operation, however it returns, is a sequence of the same few steps: a bit of one of the
bitmaps or an inode changes in memory, a bitmap or the inode table is flushed, a block is
written.  A property of states that each of these steps keeps (`Kept`) is therefore kept by
every call, and nothing has to be known about the state it is made in.

Three flags go with the property: which of the inode map, the block map and the inode table
are as they are on disk.  A change in memory takes a flag away and the flush that goes with
it gives it back; all three are set whenever a call begins and whenever it returns.
-/

namespace Fsx600

open Checked Function

namespace FS

variable {g : Layout} {s s' : FS g} {i b n : Bool} {c : Context} {path : Path} {r : ℤ}
  {P : Bool → Bool → Bool → FS g → Prop}

/-- A property that every step of the operations keeps. -/
structure Kept (P : Bool → Bool → Bool → FS g → Prop) : Prop where
  takeInode : ∀ {i b n s k}, P i b n s → k < 64 → P false b n (s.setInodeBit k true)
  dropInode : ∀ {i b n s k}, P i b n s → P false b n (s.setInodeBit k false)
  markBlock : ∀ {i b n s k}, P i b n s → s.Free k → P i false n (s.setBlockBit k true)
  clearBlock : ∀ {i b n s k}, P i b n s → g.startBlock ≤ k → P i false n (s.setBlockBit k false)
  aheadBlock : ∀ {i b n s}, P i b n s → P i false n s
  setInode : ∀ {i b n s k o}, P i b n s → P i b false (s.setInode k o)
  writeInodeMap : ∀ {i b n s}, P i b n s → P true b n s.writeInodeMap
  writeBlockMap : ∀ {i b n s}, P i b n s → P i true n s.writeBlockMap
  writeAllInodes : ∀ {i b n s}, P i b n s → P i b true s.writeAllInodes
  putBlock : ∀ {i b n s p blk}, P i b n s → P i b n (s.putBlock p blk)

theorem Kept.writeBlock (hP : Kept P) (h : P i b n s) {p : ℕ} {blk : Block}
    (hw : s.writeBlock p blk = .ok s') : P i b n s' := by
  obtain ⟨-, rfl⟩ := writeBlock_ok hw
  exact hP.putBlock h

theorem Kept.freeABlock (hP : Kept P) (h : P i b n s) {bit : ℤ} (hf : s.freeABlock bit = .ok s') :
    P i false n s' := by
  obtain rfl := freeABlock_ok hf
  split
  · exact hP.clearBlock h (by omega)
  · exact hP.aheadBlock h

/-! ## The operations on names -/

/-- An exit that returns the state it has. -/
theorem exit_ok (h : P i b n s) {r' : ℤ}
    (hr : (.ok (r', s) : Except Fault (ℤ × FS g)) = .ok (r, s')) : P i b n s' := by
  obtain ⟨-, rfl⟩ := Prod.mk.inj (Except.ok.inj hr)
  exact h

theorem Kept.releaseInode (hP : Kept P) (h : P i b n s) (k : ℕ) :
    P true b n (s.releaseInode k) :=
  hP.writeInodeMap (hP.dropInode h)

theorem Kept.mknodFinish (hP : Kept P) (h : P i true n s) {k d : ℕ} {ino : Inode} {blk : Block}
    (hr : s.mknodFinish k ino d blk = .ok (r, s')) : P true true true s' := by
  obtain ⟨-, rfl⟩ := mknodFinish_ok hr
  exact hP.putBlock (hP.writeAllInodes (hP.setInode (hP.writeInodeMap h)))

theorem Kept.fsMknod (hP : Kept P) (h : P true true true s) {mode : UInt32}
    (hr : s.fsMknod c path mode = .ok (r, s')) : P true true true s' := by
  rw [FS.fsMknod, bind_eq_ok] at hr
  obtain ⟨ci, -, hr⟩ := hr
  rw [bind_eq_ok] at hr
  obtain ⟨⟨pi, buf⟩, -, hr⟩ := hr
  dsimp only at hr
  split at hr
  · exact exit_ok h hr
  rw [bind_eq_ok] at hr
  obtain ⟨pino, -, hr⟩ := hr
  split at hr
  · exact exit_ok h hr
  split at hr
  · exact exit_ok h hr
  rw [bind_eq_ok] at hr
  obtain ⟨o, ho, hr⟩ := hr
  rcases getFreeInode_ok ho with ⟨rfl, -⟩ | ⟨k, hk, -, rfl⟩
  · exact exit_ok h hr
  -- from here on the inode map in memory is ahead of the one on disk
  have h' := hP.takeInode h hk
  dsimp only at hr
  rw [bind_eq_ok] at hr
  obtain ⟨block, -, hr⟩ := hr
  rw [bind_eq_ok] at hr
  obtain ⟨old, -, hr⟩ := hr
  split at hr
  · rw [inodeMap_setInodeBit, update_self, if_pos rfl] at hr
    exact exit_ok (hP.releaseInode h' k) hr
  rw [bind_eq_ok] at hr
  obtain ⟨name, -, hr⟩ := hr
  split at hr
  · rw [bind_eq_ok] at hr
    obtain ⟨o, ho, hr⟩ := hr
    rcases getFreeBlock_ok ho with ⟨rfl, -⟩ | ⟨blk, hblk, -, rfl⟩
    · exact exit_ok (hP.releaseInode h' k) hr
    · dsimp only at hr
      rw [bind_eq_ok] at hr
      obtain ⟨t, ht, hr⟩ := hr
      exact hP.mknodFinish (hP.writeBlock (hP.writeBlockMap (hP.markBlock h' hblk)) ht) hr
  · exact hP.mknodFinish h' hr

theorem Kept.fsRmdir (hP : Kept P) (h : P true true true s) (hr : s.fsRmdir path = .ok (r, s')) :
    P true true true s' := by
  rw [FS.fsRmdir, bind_eq_ok] at hr
  obtain ⟨ci, -, hr⟩ := hr
  rw [bind_eq_ok] at hr
  obtain ⟨⟨pi, buf⟩, -, hr⟩ := hr
  dsimp only at hr
  split at hr
  · exact exit_ok h hr
  rw [bind_eq_ok] at hr
  obtain ⟨cino, -, hr⟩ := hr
  split at hr
  · exact exit_ok h hr
  rw [bind_eq_ok] at hr
  obtain ⟨block, -, hr⟩ := hr
  split at hr
  · exact exit_ok h hr
  rw [bind_eq_ok] at hr
  obtain ⟨t, ht, hr⟩ := hr
  rw [bind_eq_ok] at hr
  obtain ⟨pino, -, hr⟩ := hr
  rw [bind_eq_ok] at hr
  obtain ⟨block', -, hr⟩ := hr
  rw [bind_eq_ok] at hr
  obtain ⟨⟨u, block''⟩, hu, hr⟩ := hr
  dsimp only at hr
  rw [bind_eq_ok] at hr
  obtain ⟨v, hv, hr⟩ := hr
  have ht' := hP.setInode (k := ci.toNat) (o := Inode.zero) (hP.writeBlockMap (hP.freeABlock h ht))
  have hu' : P true true false u := by
    rw [rmdirEntry] at hu
    split at hu
    · obtain ⟨rfl, -⟩ := Prod.mk.inj (Except.ok.inj hu)
      exact ht'
    · rw [bind_eq_ok] at hu
      obtain ⟨x, hx, hu⟩ := hu
      rw [clearInodeBit, guard_eq_ok] at hx
      obtain rfl := Except.ok.inj hx.2
      obtain ⟨rfl, -⟩ := Prod.mk.inj (Except.ok.inj hu)
      exact hP.writeInodeMap (hP.dropInode ht')
  exact exit_ok (hP.writeAllInodes (hP.setInode (hP.writeBlock hu' hv))) hr

theorem Kept.fsRename (hP : Kept P) (h : P true true true s) {dstPath : Path}
    (hr : s.fsRename c path dstPath = .ok (r, s')) : P true true true s' := by
  rw [FS.fsRename, bind_eq_ok] at hr
  obtain ⟨⟨pi, buf⟩, -, hr⟩ := hr
  dsimp only at hr
  rw [bind_eq_ok] at hr
  obtain ⟨ci, -, hr⟩ := hr
  rw [bind_eq_ok] at hr
  obtain ⟨⟨pi', buf'⟩, -, hr⟩ := hr
  dsimp only at hr
  split at hr
  · exact exit_ok h hr
  split at hr
  · exact exit_ok h hr
  rw [bind_eq_ok] at hr
  obtain ⟨pino, -, hr⟩ := hr
  rw [bind_eq_ok] at hr
  obtain ⟨block, -, hr⟩ := hr
  rw [bind_eq_ok] at hr
  obtain ⟨name, -, hr⟩ := hr
  split at hr
  · exact exit_ok h hr
  rw [bind_eq_ok] at hr
  obtain ⟨⟨t, block'⟩, ht, hr⟩ := hr
  dsimp only at hr
  rw [bind_eq_ok] at hr
  obtain ⟨u, hu, hr⟩ := hr
  have ht' : P true true true t := by
    rw [renameEntry] at ht
    split at ht
    · obtain ⟨rfl, -⟩ := Prod.mk.inj (Except.ok.inj ht)
      exact h
    · rw [bind_eq_ok] at ht
      obtain ⟨ino, -, ht⟩ := ht
      obtain ⟨rfl, -⟩ := Prod.mk.inj (Except.ok.inj ht)
      exact hP.writeAllInodes (hP.setInode h)
  exact exit_ok (hP.writeBlock ht' hu) hr

theorem Kept.touch (hP : Kept P) (h : P true true true s) {f : Inode → Inode} (hr : TouchResult f s path r s') :
    P true true true s' := by
  cases hr with
  | badPath => exact h
  | touched => exact hP.writeAllInodes (hP.setInode h)

/-! ## Truncating and unlinking -/

theorem Kept.truncDirect (hP : Kept P) (h : P i b n s) {m k : ℕ} {ino ino' : Inode}
    (hr : truncDirect m k s ino = .ok (s', ino')) : P i false n s' := by
  induction m generalizing k s ino b with
  | zero =>
    obtain ⟨rfl, -⟩ := Prod.mk.inj (Except.ok.inj hr)
    exact hP.aheadBlock h
  | succ m ih =>
    rw [FS.truncDirect] at hr
    split at hr
    · obtain ⟨rfl, -⟩ := Prod.mk.inj (Except.ok.inj hr)
      exact hP.aheadBlock h
    · rw [bind_eq_ok] at hr
      obtain ⟨t, ht, hr⟩ := hr
      exact ih (hP.freeABlock h ht) hr

theorem Kept.freeWords (hP : Kept P) {blocks : Block} (h : P i false n s) {m k : ℕ}
    (hr : freeWords blocks m k s = .ok s') : P i false n s' := by
  induction m generalizing k s with
  | zero =>
    obtain rfl := Except.ok.inj hr
    exact h
  | succ m ih =>
    rw [FS.freeWords] at hr
    split at hr
    · obtain rfl := Except.ok.inj hr
      exact h
    · rw [bind_eq_ok] at hr
      obtain ⟨t, ht, hr⟩ := hr
      exact ih (hP.freeABlock h ht) hr

theorem Kept.freeTables (hP : Kept P) {blocks : Block} (h : P i false n s) {m k : ℕ}
    (hr : freeTables blocks m k s = .ok s') : P i false n s' := by
  induction m generalizing k s with
  | zero =>
    obtain rfl := Except.ok.inj hr
    exact h
  | succ m ih =>
    rw [FS.freeTables] at hr
    split at hr
    · obtain rfl := Except.ok.inj hr
      exact h
    split at hr
    · rw [bind_eq_ok] at hr
      obtain ⟨inner, -, hr⟩ := hr
      rw [bind_eq_ok] at hr
      obtain ⟨t, ht, hr⟩ := hr
      rw [bind_eq_ok] at hr
      obtain ⟨u, hu, hr⟩ := hr
      exact ih (hP.freeABlock (hP.freeWords h ht) hu) hr
    · exact ih h hr

theorem Kept.truncIndir1 (hP : Kept P) (h : P i false n s) {ino : Inode}
    (hr : s.truncIndir1 ino = .ok s') : P i false n s' := by
  rw [FS.truncIndir1] at hr
  split at hr
  · rw [bind_eq_ok] at hr
    obtain ⟨blocks, -, hr⟩ := hr
    exact hP.freeWords h hr
  · obtain rfl := Except.ok.inj hr
    exact h

theorem Kept.truncIndir2 (hP : Kept P) (h : P i false n s) {ino : Inode}
    (hr : s.truncIndir2 ino = .ok s') : P i false n s' := by
  rw [FS.truncIndir2] at hr
  split at hr
  · rw [bind_eq_ok] at hr
    obtain ⟨blocks, -, hr⟩ := hr
    exact hP.freeTables h hr
  · obtain rfl := Except.ok.inj hr
    exact h

theorem Kept.fsTruncate (hP : Kept P) (h : P true true true s) {len : ℤ}
    (hr : s.fsTruncate path len = .ok (r, s')) : P true true true s' := by
  rw [FS.fsTruncate] at hr
  split at hr
  · exact exit_ok h hr
  rw [bind_eq_ok] at hr
  obtain ⟨o, -, hr⟩ := hr
  split at hr
  · exact exit_ok h hr
  rw [bind_eq_ok] at hr
  obtain ⟨ino, -, hr⟩ := hr
  split at hr
  · exact exit_ok h hr
  rw [bind_eq_ok] at hr
  obtain ⟨⟨t, ino'⟩, ht, hr⟩ := hr
  dsimp only at hr
  rw [bind_eq_ok] at hr
  obtain ⟨u, hu, hr⟩ := hr
  rw [bind_eq_ok] at hr
  obtain ⟨v, hv, hr⟩ := hr
  have hv' := hP.truncIndir2 (hP.truncIndir1 (hP.truncDirect h ht) hu) hv
  exact exit_ok (hP.writeAllInodes (hP.setInode (hP.writeBlockMap hv'))) hr

theorem Kept.fsUnlink (hP : Kept P) (h : P true true true s) (hr : s.fsUnlink c path = .ok (r, s')) :
    P true true true s' := by
  rw [FS.fsUnlink, bind_eq_ok] at hr
  obtain ⟨⟨r₁, t⟩, ht, hr⟩ := hr
  dsimp only at hr
  have h' := hP.fsTruncate h ht
  split at hr
  · exact exit_ok h' hr
  rw [bind_eq_ok] at hr
  obtain ⟨⟨pi, buf⟩, -, hr⟩ := hr
  dsimp only at hr
  rw [bind_eq_ok] at hr
  obtain ⟨last, -, hr⟩ := hr
  rw [bind_eq_ok] at hr
  obtain ⟨pino, -, hr⟩ := hr
  rw [bind_eq_ok] at hr
  obtain ⟨block, -, hr⟩ := hr
  rw [bind_eq_ok] at hr
  obtain ⟨o, -, hr⟩ := hr
  split at hr
  · exact exit_ok h' hr
  · exact exit_ok h' hr
  · rw [bind_eq_ok] at hr
    obtain ⟨u, hu, hr⟩ := hr
    have hu' := hP.writeBlock (hP.setInode (hP.dropInode h')) hu
    exact exit_ok (hP.writeInodeMap (hP.writeAllInodes hu')) hr

/-! ## Writing -/

theorem Kept.takeBlock (hP : Kept P) (h : P true true true s) {k : ℕ} (hk : s.Free k) :
    P true true true (s.takeBlock k) :=
  hP.writeBlockMap (hP.markBlock h hk)

theorem Kept.slotBlock (hP : Kept P) {v : WriteVars g} (h : P true true true v.fs) {p q : UInt32} {block : Block}
    {start : ℕ} {t : FS g} (hb : SlotBlock v p (some (q, block, start, t))) : P true true true t := by
  cases hb with
  | fresh _ hb => exact hP.takeBlock h hb.free
  | mapped => exact h

/-- Each pass stores the inode and flushes it before it writes blocks. -/
theorem Kept.store (hP : Kept P) {t : FS g} (h : P true true true t) (k : ℕ) (ino : Inode) :
    P true true true (t.setInode k ino).writeAllInodes :=
  hP.writeAllInodes (hP.setInode h)

theorem Kept.writeDirect (hP : Kept P) {inum m k : ℕ} {v : WriteVars g} {f : Flow g} (h : P true true true v.fs)
    (hf : writeDirect inum m k v = .ok f) : P true true true f.state := by
  induction m generalizing k v with
  | zero =>
    obtain rfl := Except.ok.inj hf
    exact h
  | succ m ih =>
    rcases writeDirect_succ hf with ⟨-, -, rfl⟩ | ⟨p, block, start, t, hb, hf⟩
    · exact h
    · have hpass : P true true true (passDirect inum k v p block start t).fs :=
        hP.putBlock (hP.store (hP.slotBlock h hb) _ _)
      rcases hf with ⟨-, rfl⟩ | ⟨-, hf⟩
      · exact hpass
      · exact ih hpass hf

theorem Kept.writeLevel1 (hP : Kept P) {inum m k : ℕ} {indirect1 : Block} {v : WriteVars g} {f : Flow g}
    (h : P true true true v.fs) (hf : writeLevel1 inum m k indirect1 v = .ok f) :
    P true true true f.state := by
  induction m generalizing k v indirect1 with
  | zero =>
    obtain rfl := Except.ok.inj hf
    exact h
  | succ m ih =>
    rcases writeLevel1_succ hf with ⟨-, -, rfl⟩ | ⟨p, block, start, t, hb, hf⟩
    · exact h
    · have hpass : P true true true (passLevel1 inum k indirect1 v p block start t).fs :=
        hP.putBlock (hP.putBlock (hP.store (hP.slotBlock h hb) _ _))
      rcases hf with ⟨-, rfl⟩ | ⟨-, hf⟩
      · exact hpass
      · exact ih hpass hf

theorem Kept.writeInner (hP : Kept P) {inum m k : ℕ} {outer : UInt32} {indirect1 : Block} {v : WriteVars g}
    {f : Flow g} (h : P true true true v.fs) (hf : writeInner inum outer m k indirect1 v = .ok f) :
    P true true true f.state := by
  induction m generalizing k v indirect1 with
  | zero =>
    obtain rfl := Except.ok.inj hf
    exact h
  | succ m ih =>
    rcases writeInner_succ hf with ⟨-, -, rfl⟩ | ⟨p, block, start, t, hb, hf⟩
    · exact h
    · have hpass : P true true true (passInner inum k outer indirect1 v p block start t).fs :=
        hP.putBlock (hP.putBlock (hP.store (hP.slotBlock h hb) _ _))
      rcases hf with ⟨-, rfl⟩ | ⟨-, hf⟩
      · exact hpass
      · exact ih hpass hf

theorem Kept.writeOuter (hP : Kept P) {inum m k j : ℕ} {indirect2 : Block} {v : WriteVars g} {f : Flow g}
    (h : P true true true v.fs) (hf : writeOuter inum m k j indirect2 v = .ok f) :
    P true true true f.state := by
  induction m generalizing k j v indirect2 with
  | zero =>
    obtain rfl := Except.ok.inj hf
    exact h
  | succ m ih =>
    rw [FS.writeOuter, bind_eq_ok] at hf
    obtain ⟨o, ho, hf⟩ := hf
    have hcases := outerBlock_ok ho
    cases o with
    | none =>
      obtain rfl := Except.ok.inj hf
      exact h
    | some x =>
      obtain ⟨outer, indirect2', t⟩ := x
      have ht : P true true true t := by
        cases hcases with
        | fresh _ hb => exact hP.putBlock (hP.takeBlock h hb.free)
        | mapped => exact h
      dsimp only at hf
      rw [bind_eq_ok] at hf
      obtain ⟨indirect1, -, hf⟩ := hf
      rw [bind_eq_ok] at hf
      obtain ⟨f', hf', hf⟩ := hf
      have hinner : P true true true f'.state := hP.writeInner ht hf'
      cases f' with
      | cleanup total u =>
        obtain rfl := Except.ok.inj hf
        exact hinner
      | next w => exact ih hinner hf

/-- A block of pointers, taken or there already, and what `start` does from there. -/
theorem Kept.fromLevel2 (hP : Kept P) {inum nb : ℕ} {v : WriteVars g} {f : Flow g} (h : P true true true v.fs)
    (hf : fromLevel2 inum nb v = .ok f) : P true true true f.state := by
  have hstart : ∀ w : WriteVars g, P true true true w.fs → ∀ indirect2,
      FS.writeOuter inum (256 - (nb - 262) / 256) ((nb - 262) / 256) ((nb - 262) % 256) indirect2 w =
        .ok f → P true true true f.state := fun w hw _ => hP.writeOuter hw
  rw [FS.fromLevel2] at hf
  dsimp only at hf
  split at hf
  · rw [bind_eq_ok] at hf
    obtain ⟨o, ho, hf⟩ := hf
    rcases newBlock_ok ho with ⟨rfl, -⟩ | ⟨b, hb, rfl⟩
    · obtain rfl := Except.ok.inj hf
      exact h
    · dsimp only at hf
      rw [bind_eq_ok] at hf
      obtain ⟨u, hu, hf⟩ := hf
      rw [bind_eq_ok] at hf
      obtain ⟨indirect2, -, hf⟩ := hf
      exact hstart _ (hP.writeBlock (hP.store (hP.takeBlock h hb.free) _ _) hu) _ hf
  · rw [bind_eq_ok] at hf
    obtain ⟨indirect2, -, hf⟩ := hf
    exact hstart _ h _ hf

/-- Past the loop of the first level: a cleanup ends the write. -/
theorem Kept.afterLevel1 (hP : Kept P) {inum : ℕ} {f f' : Flow g} (h : P true true true f.state)
    (hf : (match f with
      | .cleanup total s => Except.ok (Flow.cleanup total s)
      | .next v => FS.fromLevel2 inum 262 v) = .ok f') : P true true true f'.state := by
  cases f with
  | cleanup total u =>
    obtain rfl := Except.ok.inj hf
    exact h
  | next w => exact hP.fromLevel2 h hf

theorem Kept.fromLevel1 (hP : Kept P) {inum nb : ℕ} {v : WriteVars g} {f : Flow g} (h : P true true true v.fs)
    (hf : fromLevel1 inum nb v = .ok f) : P true true true f.state := by
  rw [FS.fromLevel1] at hf
  dsimp only at hf
  split at hf
  · rw [bind_eq_ok] at hf
    obtain ⟨o, ho, hf⟩ := hf
    rcases newBlock_ok ho with ⟨rfl, -⟩ | ⟨b, hb, rfl⟩
    · obtain rfl := Except.ok.inj hf
      exact h
    · dsimp only at hf
      rw [bind_eq_ok] at hf
      obtain ⟨u, hu, hf⟩ := hf
      rw [bind_eq_ok] at hf
      obtain ⟨indirect1, -, hf⟩ := hf
      rw [bind_eq_ok] at hf
      obtain ⟨w, hw, hf⟩ := hf
      have hlevel : P true true true w.state :=
        hP.writeLevel1 (hP.writeBlock (hP.store (hP.takeBlock h hb.free) _ _) hu) hw
      exact hP.afterLevel1 hlevel hf
  · rw [bind_eq_ok] at hf
    obtain ⟨indirect1, -, hf⟩ := hf
    rw [bind_eq_ok] at hf
    obtain ⟨w, hw, hf⟩ := hf
    have hlevel : P true true true w.state := hP.writeLevel1 h hw
    exact hP.afterLevel1 hlevel hf

theorem Kept.fromDirect (hP : Kept P) {inum nb : ℕ} {v : WriteVars g} {f : Flow g} (h : P true true true v.fs)
    (hf : fromDirect inum nb v = .ok f) : P true true true f.state := by
  rw [FS.fromDirect, bind_eq_ok] at hf
  obtain ⟨f', hf', hf⟩ := hf
  have hdirect : P true true true f'.state := hP.writeDirect h hf'
  cases f' with
  | cleanup total u =>
    obtain rfl := Except.ok.inj hf
    exact hdirect
  | next w => exact hP.fromLevel1 hdirect hf

theorem Kept.writeBlocks (hP : Kept P) {inum nb : ℕ} {v : WriteVars g} {f : Flow g} (h : P true true true v.fs)
    (hf : writeBlocks inum nb v = .ok f) : P true true true f.state := by
  rw [FS.writeBlocks] at hf
  split at hf
  · exact hP.fromDirect h hf
  split at hf
  · exact hP.fromLevel1 h hf
  split at hf
  · exact hP.fromLevel2 h hf
  · exact hP.fromDirect h hf

theorem Kept.writeCleanup (hP : Kept P) (h : P true true true s) {total : ℤ}
    (hr : writeCleanup c path total s = .ok (r, s')) : P true true true s' := by
  rw [FS.writeCleanup, bind_eq_ok] at hr
  obtain ⟨⟨r₁, t⟩, ht, hr⟩ := hr
  exact exit_ok (hP.touch h (fsUtime_ok ht)) hr

theorem Kept.fsWrite (hP : Kept P) (h : P true true true s) {buf : ℕ → UInt8} {len offset : ℕ}
    (hr : s.fsWrite c path buf len offset = .ok (r, s')) : P true true true s' := by
  rw [FS.fsWrite, bind_eq_ok] at hr
  obtain ⟨o, -, hr⟩ := hr
  split at hr
  · exact exit_ok h hr
  rw [bind_eq_ok] at hr
  obtain ⟨ino, -, hr⟩ := hr
  split at hr
  · exact exit_ok h hr
  split at hr
  · exact exit_ok h hr
  rw [bind_eq_ok] at hr
  obtain ⟨f, hf, hr⟩ := hr
  have hblocks : P true true true f.state := hP.writeBlocks h hf
  cases f with
  | cleanup total u => exact hP.writeCleanup hblocks hr
  | next w => exact hP.writeCleanup hblocks hr

/-! ## Calls and runs -/

/-- One call, whatever it returns. -/
theorem Kept.exec (hP : Kept P) (h : P true true true s) {a : Call} (hr : s.exec c a = .ok (r, s')) :
    P true true true s' := by
  cases a with
  | mknod path mode => exact hP.fsMknod h hr
  | mkdir path mode => exact hP.fsMknod h hr
  | unlink path => exact hP.fsUnlink h hr
  | rmdir path => exact hP.fsRmdir h hr
  | rename srcPath dstPath => exact hP.fsRename h hr
  | chmod path mode => exact hP.touch h (fsChmod_ok hr)
  | utime path modtime => exact hP.touch h (fsUtime_ok hr)
  | truncate path len => exact hP.fsTruncate h hr
  | write path buf len offset => exact hP.fsWrite h hr

end FS

end Fsx600
