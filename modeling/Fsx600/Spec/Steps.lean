import Fsx600.Spec.Primitives
import Fsx600.Spec.Names

/-!
# What one call can do

For each operation on names, every way it can return from a well-formed state: the
return code, the reason, and the next state.  The operations change the tree in two
ways only, and these are relations of their own:

* `Created`: an inode and, for a directory, a block are taken and an entry is filled;
* `Removed`: an entry is cleared and its inode given back.

`fs_rename`, `fs_chmod` and `fs_utime` change an entry's name or an inode's fields in
place.
-/

namespace Fsx600

open Checked Function

namespace FS

variable {g : Layout} {s s' : FS g} {c : Context} {path : Path} {r : ℤ}

/-- A scan of all slots that finds none. -/
theorem forall_slot_of_not_any {f : ℕ → Bool} (h : ¬ (List.range 32).any f = true) :
    ∀ k < 32, f k = false := by
  simpa using h

/-- A path leads to the directory `p` and ends in the name `last`. -/
structure Parent (s : FS g) (path : Path) (p : ℕ) (last : Name) : Prop where
  walk : s.walk 1 path.tokens.dropLast = .inr p
  last : path.tokens.getLast? = some last

theorem Parent.mem {p : ℕ} {last : Name} (h : s.Parent path p last) : last ∈ path.tokens :=
  List.mem_of_mem_getLast? h.last

theorem Parent.tokens {p : ℕ} {last : Name} (h : s.Parent path p last) :
    path.tokens = path.tokens.dropLast ++ [last] :=
  (List.dropLast_append_getLast? last h.last).symm

theorem Parent.resolve {p : ℕ} {last : Name} (h : s.Parent path p last) :
    s.resolve 1 path.tokens = s.child p last := by
  rw [h.tokens, resolve_append, h.walk]
  rfl

/-- `get_parent_inum` when it answers with an inode. -/
theorem parent_of_getParentInum {p : ℕ} {buf : List UInt8}
    (h : s.getParentInum path = .ok ((p : ℤ), buf)) :
    ∃ last, s.Parent path p last ∧ last.length ≤ 26 ∧
      buf = last ++ List.replicate (26 - last.length) 0 := by
  rcases getParentInum_ok h with ⟨-, hp0⟩ | ⟨last, hlast, hw, hlen, hbuf⟩
  · rw [EINVAL] at hp0
    omega
  refine ⟨last, ⟨?_, hlast⟩, hlen, hbuf⟩
  cases hwalk : s.walk 1 path.tokens.dropLast with
  | inl e =>
    have := error_neg (walk_error hwalk)
    rw [hwalk, code_inl] at hw
    omega
  | inr q =>
    rw [hwalk, code_inr] at hw
    exact congrArg Sum.inr (by omega)

/-- The name read back from the buffer is the last component, and has at most 25 bytes. -/
theorem Parent.name_eq {p : ℕ} {last name : Name} (hp : s.Parent path p last) (hlen : last.length ≤ 26)
    (h : bufferString (last ++ List.replicate (26 - last.length) 0) = .ok name) :
    Name.Fits last ∧ name = last := by
  obtain ⟨hname, hroom⟩ := bufferString_ok (path.nul_notMem_of_mem_tokens hp.mem) h
  exact ⟨path.fits_of_mem hp.mem (by omega), hname⟩

theorem Parent.eq_of_getLastOfSplit {p : ℕ} {last name : Name} (hp : s.Parent path p last)
    (h : getLastOfSplit path = .ok name) : name = last := by
  rw [getLastOfSplit, bind_eq_ok] at h
  obtain ⟨q, hq, h⟩ := h
  rw [Path.split_ok hq, hp.last] at h
  exact (Except.ok.inj h).symm

theorem Wf.allocDir_of_parent (hwf : Wf s) {p : ℕ} {last : Name} (h : s.Parent path p last) :
    s.AllocDir p :=
  hwf.allocDir_of_walk hwf.allocDir_one h.walk

theorem Wf.pos_of_allocDir (hwf : Wf s) {d : ℕ} (hd : s.AllocDir d) : 0 < d :=
  Nat.pos_of_ne_zero fun h0 => hwf.not_allocDir_zero (h0 ▸ hd)

/-- In a well-formed state the two walkers agree on the parent, or both fail. -/
theorem Wf.parent_cases (hwf : Wf s) {ci pi : ℤ} {buf : List UInt8}
    (hc : s.translatePathToInum path = .ok ci) (hp : s.getParentInum path = .ok (pi, buf)) :
    (path.tokens = [] ∧ ci = 1 ∧ pi = -EINVAL) ∨
    (∃ e, (e = -ENOENT ∨ e = -ENOTDIR) ∧ s.walk 1 path.tokens.dropLast = .inl e ∧
      s.resolve 1 path.tokens = .inl e ∧ ci = e ∧ pi = e) ∨
    (∃ p last, s.Parent path p last ∧ s.AllocDir p ∧ pi = p ∧ ci = code (s.child p last) ∧
      last.length ≤ 26 ∧ buf = last ++ List.replicate (26 - last.length) 0) := by
  rcases walkers hc hp with h | ⟨e, he, hw, hne, hce, hpe⟩ | ⟨p, last, hw, hl, -, hpe, hce, hlen, hbuf⟩
  · exact Or.inl h
  · refine Or.inr (Or.inl ⟨e, he, hw, ?_, hce, hpe⟩)
    rw [← List.dropLast_append_getLast hne, resolve_append, hw]
    rfl
  · have hpar : s.Parent path p last := ⟨hw, hl⟩
    exact Or.inr (Or.inr ⟨p, last, hpar, hwf.allocDir_of_parent hpar, hpe, hce, hlen, hbuf⟩)

/-! ## Creation -/

/-- The inode of a new file, or of a new directory with the block `fresh`. -/
def createdInode (c : Context) (mode : UInt32) (old : Inode) : Option ℕ → Inode
  | none => newInode c mode old
  | some b => (newInode c mode old).setDirect 0 (UInt32.ofNat b)

/-- Inode `n` and, for a directory, the block `fresh` are taken for the name `name`, which
is entered in slot `j` of the directory `p`. -/
structure Created (c : Context) (mode : UInt32) (p j n : ℕ) (name : Name) (fresh : Option ℕ)
    (s s' : FS g) : Prop where
  parent : s.AllocDir p
  fits : Name.Fits name
  missing : s.child p name = .inl (-ENOENT)
  slot_lt : j < 32
  slot_free : (s.entry p j).valid = false
  slot_first : ∀ k < j, (s.entry p k).valid = true
  inode_lt : n < 64
  inode_free : s.inodeMap n = false
  fresh_isSome : fresh.isSome = sIsDir mode
  fresh_free : ∀ b ∈ fresh, s.Free b
  inodeMap : s'.inodeMap = update s.inodeMap n true
  inodes : s'.inodes = update s.inodes n (createdInode c mode (s.inodes n) fresh)
  blockMap : ∀ b, s'.blockMap b = (s.blockMap b || fresh == some b)
  disk : ∀ x, g.startBlock ≤ x → s'.disk x =
    if x = ((s.inodes p).directAt 0).toNat then (s.dirBlock p).setDirent j (newDirent name mode n)
    else if fresh = some x then Block.zero else s.disk x
  trace : s'.trace = ((s.inodes p).directAt 0).toNat :: fresh.toList ++ s.trace

/-- The ways `fs_mknod` returns. -/
inductive MknodResult (c : Context) (s : FS g) (path : Path) (mode : UInt32) : ℤ → FS g → Prop
  | badPath {e : ℤ} (he : e = -ENOENT ∨ e = -ENOTDIR)
      (hw : s.walk 1 path.tokens.dropLast = .inl e) : MknodResult c s path mode e s
  | exists {p : ℕ} {last : Name} {i : ℕ} (hp : s.Parent path p last)
      (hi : s.child p last = .inr i) : MknodResult c s path mode (-EEXIST) s
  | noInode {p : ℕ} {last : Name} (hp : s.Parent path p last)
      (hfull : ∀ i < 64, s.inodeMap i = true) : MknodResult c s path mode (-ENOSPC) s
  | noSlot {p : ℕ} {last : Name} (hp : s.Parent path p last)
      (hfull : ∀ j < 32, (s.entry p j).valid = true) :
      MknodResult c s path mode (-ENOSPC) s.writeInodeMap
  | noBlock {p : ℕ} {last : Name} (hp : s.Parent path p last) (hdir : sIsDir mode = true)
      (hfull : ∀ b, ¬ s.Free b) : MknodResult c s path mode (-ENOSPC) s.writeInodeMap
  | created {p j n : ℕ} {last : Name} {fresh : Option ℕ} {s' : FS g} (hp : s.Parent path p last)
      (h : Created c mode p j n last fresh s s') : MknodResult c s path mode 0 s'

/-- Giving back the inode bit just taken leaves the maps as they were. -/
theorem releaseInode_setInodeBit {n : ℕ} (hn : s.inodeMap n = false) :
    (s.setInodeBit n true).releaseInode n = s.writeInodeMap := by
  have hmap : update (update s.inodeMap n true) n false = s.inodeMap := by
    rw [update_idem, ← hn, update_eq_self]
  simp only [releaseInode, setInodeBit, hmap]

theorem child_ne_inr_zero (hwf : Wf s) {p i : ℕ} {n : Name} (hp : s.AllocDir p)
    (hc : s.child p n = .inr i) : 2 ≤ i := by
  obtain ⟨j, -, he⟩ := Wf.edge_of_child hp hc
  exact (hwf.edge_child he).2.1

/-- The end of `fs_mknod`. -/
theorem mknodFinish_ok {n d : ℕ} {ino : Inode} {b : Block}
    (h : s.mknodFinish n ino d b = .ok (r, s')) :
    r = 0 ∧ s' = ((s.writeInodeMap.setInode n ino).writeAllInodes).putBlock d b := by
  rw [mknodFinish, bind_eq_ok] at h
  obtain ⟨t, ht, h⟩ := h
  obtain ⟨-, rfl⟩ := writeBlock_ok ht
  have h := Except.ok.inj h
  exact ⟨(congrArg Prod.fst h).symm, (congrArg Prod.snd h).symm⟩

/-- The rest of `fs_mknod` once an inode and a slot are found: a directory needs a block. -/
theorem mknodEnter_ok {mode : UInt32} {p j n : ℕ} {last : Name} (hp : s.Parent path p last)
    (hdir : s.AllocDir p) (hfits : Name.Fits last) (hmissing : s.child p last = .inl (-ENOENT))
    (hj : j < 32) (hjfree : (s.entry p j).valid = false) (hjfirst : ∀ k < j, (s.entry p k).valid = true)
    (hn64 : n < 64) (hn : s.inodeMap n = false)
    (h : (if sIsDir mode then do
        match ← (s.setInodeBit n true).getFreeBlock with
        | none => .ok (-ENOSPC, (s.setInodeBit n true).releaseInode n)
        | some (blockNum, t) => do
          let t ← t.writeBlockMap.writeBlock blockNum Block.zero
          t.mknodFinish n ((newInode c mode (s.inodes n)).setDirect 0 (UInt32.ofNat blockNum))
            ((s.inodes p).directAt 0).toNat ((s.dirBlock p).setDirent j (newDirent last mode n))
      else (s.setInodeBit n true).mknodFinish n (newInode c mode (s.inodes n))
        ((s.inodes p).directAt 0).toNat ((s.dirBlock p).setDirent j (newDirent last mode n))) =
          .ok (r, s')) : MknodResult c s path mode r s' := by
  by_cases hmode : sIsDir mode = true
  · rw [if_pos hmode, bind_eq_ok] at h
    obtain ⟨o, ho, h⟩ := h
    rcases getFreeBlock_ok ho with ⟨rfl, hfull⟩ | ⟨b, hb, -, rfl⟩
    · obtain ⟨rfl, rfl⟩ := Prod.mk.inj (Except.ok.inj h)
      rw [releaseInode_setInodeBit hn]
      exact .noBlock hp hmode hfull
    dsimp only at h
    rw [bind_eq_ok] at h
    obtain ⟨t, ht, h⟩ := h
    obtain ⟨-, rfl⟩ := writeBlock_ok ht
    obtain ⟨rfl, rfl⟩ := mknodFinish_ok h
    refine @MknodResult.created _ _ _ _ _ p j n _ (some b) _ hp
      ⟨hdir, hfits, hmissing, hj, hjfree, hjfirst, hn64, hn, by simp [hmode], ?_, rfl, rfl, ?_, ?_, rfl⟩
    · rintro x ⟨⟩
      exact hb
    · intro x
      simp only [blockMap_putBlock, blockMap_writeAllInodes, blockMap_setInode,
        blockMap_writeInodeMap, blockMap_writeBlockMap, blockMap_setBlockBit, update_apply]
      rcases eq_or_ne x b with rfl | hx
      · simp
      · simp [hx, hx.symm]
    · intro x hx
      simp only [disk_putBlock, disk_writeAllInodes _ hx, disk_setInode, disk_writeInodeMap _ hx,
        disk_writeBlockMap _ hx, disk_setBlockBit, disk_setInodeBit, Option.some.injEq,
        eq_comm (a := b)]
  · rw [if_neg hmode] at h
    obtain ⟨rfl, rfl⟩ := mknodFinish_ok h
    refine @MknodResult.created _ _ _ _ _ p j n _ none _ hp
      ⟨hdir, hfits, hmissing, hj, hjfree, hjfirst, hn64, hn, by simp [hmode], ?_, rfl, rfl, ?_, ?_, rfl⟩
    · simp
    · intro x
      simp
    · intro x hx
      simp only [disk_putBlock, disk_writeAllInodes _ hx, disk_setInode, disk_writeInodeMap _ hx,
        disk_setInodeBit, reduceCtorEq, if_false]

theorem fsMknod_ok (hwf : Wf s) {mode : UInt32} (h : s.fsMknod c path mode = .ok (r, s')) :
    MknodResult c s path mode r s' := by
  rw [fsMknod, bind_eq_ok] at h
  obtain ⟨ci, hci, h⟩ := h
  rw [bind_eq_ok] at h
  obtain ⟨⟨pi, buf⟩, hpi, h⟩ := h
  dsimp only at h
  rcases hwf.parent_cases hci hpi with ⟨-, -, rfl⟩ | ⟨e, he, hw, -, -, rfl⟩ |
    ⟨p, last, hp, hdir, rfl, rfl, hlen, rfl⟩
  · -- the root has no parent: `inodes[-EINVAL]`
    rw [if_neg (by decide), bind_eq_ok] at h
    obtain ⟨ino, hino, -⟩ := h
    exact absurd (inode_ok hino).1 (by decide)
  · rw [if_pos he.symm] at h
    obtain ⟨rfl, rfl⟩ := Prod.mk.inj (Except.ok.inj h)
    exact .badPath he hw
  rw [if_neg (natCast_not_error p), bind_eq_ok] at h
  obtain ⟨pino, hpino, h⟩ := h
  obtain ⟨-, -, rfl⟩ := inode_ok hpino
  rw [Int.toNat_natCast, if_neg (by simpa [isDir] using hdir.2)] at h
  cases hchild : s.child p last with
  | inr i =>
    have := child_ne_inr_zero hwf hdir hchild
    rw [hchild, code_inr, if_pos (by omega)] at h
    obtain ⟨rfl, rfl⟩ := Prod.mk.inj (Except.ok.inj h)
    exact .exists hp hchild
  | inl e =>
    obtain ⟨rfl, -⟩ := child_error hchild
    rw [hchild, code_inl, if_neg (by decide), bind_eq_ok] at h
    obtain ⟨o, ho, h⟩ := h
    rcases getFreeInode_ok ho with ⟨rfl, hfull⟩ | ⟨n, hn64, hn, rfl⟩
    · obtain ⟨rfl, rfl⟩ := Prod.mk.inj (Except.ok.inj h)
      exact .noInode hp hfull
    dsimp only at h
    rw [bind_eq_ok] at h
    obtain ⟨block, hblock, h⟩ := h
    obtain ⟨-, rfl⟩ := readBlock_ok hblock
    rw [bind_eq_ok] at h
    obtain ⟨old, hold, h⟩ := h
    obtain ⟨-, -, rfl⟩ := inode_ok hold
    change (match freeSlot (s.dirBlock p) with
      | none => _
      | some i => _) = _ at h
    cases hslot : freeSlot (s.dirBlock p) with
    | none =>
      rw [hslot] at h
      obtain ⟨rfl, rfl⟩ := Prod.mk.inj (Except.ok.inj h)
      rw [inodeMap_setInodeBit, update_self, if_pos rfl, releaseInode_setInodeBit hn]
      exact .noSlot hp (freeSlot_eq_none hslot)
    | some j =>
      obtain ⟨hj, hjfree, hjfirst⟩ := freeSlot_eq_some hslot
      rw [hslot] at h
      dsimp only at h
      rw [bind_eq_ok] at h
      obtain ⟨name, hname, h⟩ := h
      obtain ⟨hfits, rfl⟩ := hp.name_eq hlen hname
      exact mknodEnter_ok hp hdir hfits hchild hj hjfree hjfirst hn64 hn h

theorem fsMkdir_ok (hwf : Wf s) {mode : UInt32} (h : s.fsMkdir c path mode = .ok (r, s')) :
    MknodResult c s path (mode ||| S_IFDIR) r s' :=
  fsMknod_ok hwf h

/-- The inode that `fs_mknod` takes lies in the inode region: it looks it up. -/
theorem fsMknod_inode_lt {mode : UInt32} (h : s.fsMknod c path mode = .ok (r, s')) {i : ℕ}
    (hi : s'.inodeMap i = true) : s.inodeMap i = true ∨ i < g.numInodes := by
  rw [fsMknod, bind_eq_ok] at h
  obtain ⟨ci, -, h⟩ := h
  rw [bind_eq_ok] at h
  obtain ⟨⟨pi, buf⟩, -, h⟩ := h
  have hexit : ∀ {r' : ℤ}, (.ok (r', s) : Except Fault (ℤ × FS g)) = .ok (r, s') →
      s.inodeMap i = true ∨ i < g.numInodes := fun hr => by
    obtain ⟨-, rfl⟩ := Prod.mk.inj (Except.ok.inj hr)
    exact Or.inl hi
  dsimp only at h
  split at h
  · exact hexit h
  rw [bind_eq_ok] at h
  obtain ⟨pino, -, h⟩ := h
  split at h
  · exact hexit h
  split at h
  · exact hexit h
  rw [bind_eq_ok] at h
  obtain ⟨o, ho, h⟩ := h
  rcases getFreeInode_ok ho with ⟨rfl, -⟩ | ⟨n, -, hfree, rfl⟩
  · exact hexit h
  dsimp only at h
  rw [bind_eq_ok] at h
  obtain ⟨block, -, h⟩ := h
  rw [bind_eq_ok] at h
  obtain ⟨old, hold, h⟩ := h
  have hn : n < g.numInodes := (inode_ok hold).2.1
  -- whatever comes next, no bit but that of `n` has been set
  suffices hmap : s'.inodeMap i = true → s.inodeMap i = true ∨ i = n by
    rcases hmap hi with hi | rfl
    · exact Or.inl hi
    · exact Or.inr hn
  have hfinish : ∀ {t : FS g} {ino : Inode} {d : ℕ} {b : Block}, t.inodeMap = update s.inodeMap n true →
      t.mknodFinish n ino d b = .ok (r, s') → s'.inodeMap i = true → s.inodeMap i = true ∨ i = n := by
    intro t ino d b ht hr hv
    obtain ⟨-, rfl⟩ := mknodFinish_ok hr
    have hv : t.inodeMap i = true := hv
    rw [ht, update_apply] at hv
    split at hv
    · next hin => exact Or.inr hin
    · exact Or.inl hv
  split at h
  · rw [inodeMap_setInodeBit, update_self, if_pos rfl, releaseInode_setInodeBit hfree] at h
    obtain ⟨-, rfl⟩ := Prod.mk.inj (Except.ok.inj h)
    exact Or.inl
  rw [bind_eq_ok] at h
  obtain ⟨name, -, h⟩ := h
  split at h
  · rw [bind_eq_ok] at h
    obtain ⟨o, ho, h⟩ := h
    rcases getFreeBlock_ok ho with ⟨rfl, -⟩ | ⟨b, -, -, rfl⟩
    · rw [releaseInode_setInodeBit hfree] at h
      obtain ⟨-, rfl⟩ := Prod.mk.inj (Except.ok.inj h)
      exact Or.inl
    · dsimp only at h
      rw [bind_eq_ok] at h
      obtain ⟨t, ht, h⟩ := h
      obtain ⟨-, rfl⟩ := writeBlock_ok ht
      exact hfinish rfl h
  · exact hfinish rfl h

/-! ## Removal -/

/-- The entry in slot `j` of the directory `p` is replaced by `e`, which is not valid, and
its inode `i` is given back, with some of the blocks it holds. -/
structure Removed (p j i : ℕ) (e : Dirent) (s s' : FS g) : Prop where
  edge : s.Edge p j i
  leaf : s.isDir i = true → ∀ k < 32, (s.entry i k).valid = false
  entry_valid : e.valid = false
  entry_inode : e.inode = 0 ∨ e.inode = (s.entry p j).inode
  entry_nul : e.nameByte 27 = 0
  inodeMap : s'.inodeMap = update s.inodeMap i false
  inodes : ∀ k, k ≠ i → s'.inodes k = s.inodes k
  blockMap : ∀ b, s'.blockMap b = s.blockMap b ∨
    s'.blockMap b = false ∧ ∃ σ, s.owner (i, σ) = some b
  disk : ∀ x, g.startBlock ≤ x → s'.disk x =
    if x = ((s.inodes p).directAt 0).toNat then (s.dirBlock p).setDirent j e else s.disk x
  trace : s'.trace = ((s.inodes p).directAt 0).toNat :: s.trace

/-- The ways `fs_rmdir` returns. -/
inductive RmdirResult (s : FS g) (path : Path) : ℤ → FS g → Prop
  | badPath {e : ℤ} (hr : s.resolve 1 path.tokens = .inl e) : RmdirResult s path e s
  | notDir {i : ℕ} (hr : s.resolve 1 path.tokens = .inr i) (hd : s.isDir i = false) :
      RmdirResult s path (-ENOTDIR) s
  | notEmpty {i j : ℕ} (hr : s.resolve 1 path.tokens = .inr i) (hd : s.isDir i = true)
      (hj : j < 32) (hv : (s.entry i j).valid = true) : RmdirResult s path (-ENOTEMPTY) s
  | removed {p i j : ℕ} {last : Name} {s' : FS g} (hp : s.Parent path p last)
      (hi : s.child p last = .inr i) (hd : s.isDir i = true) (h : Removed p j i Dirent.zero s s')
      (hfree : s'.blockMap = update s.blockMap ((s.inodes i).directAt 0).toNat false) :
      RmdirResult s path 0 s'

theorem Edge.ne_of_leaf {p j i : ℕ} (he : s.Edge p j i)
    (hleaf : ∀ k < 32, (s.entry i k).valid = false) : p ≠ i := by
  rintro rfl
  have hv := he.2.2.1
  rw [hleaf j he.2.1] at hv
  exact Bool.noConfusion hv

theorem rmdirEntry_ok {b b' : Block} {i j : ℕ} (h : s.rmdirEntry b i = .ok (s', b'))
    (hj : slotOfInode b i = some j) :
    s' = (s.setInodeBit i false).writeInodeMap ∧ b' = b.setDirent j Dirent.zero := by
  rw [rmdirEntry, hj] at h
  dsimp only at h
  rw [bind_eq_ok] at h
  obtain ⟨t, ht, h⟩ := h
  rw [clearInodeBit, guard_eq_ok] at ht
  obtain rfl := Except.ok.inj ht.2
  have h := Except.ok.inj h
  exact ⟨(congrArg Prod.fst h).symm, (congrArg Prod.snd h).symm⟩

theorem fsRmdir_ok (hwf : Wf s) (h : s.fsRmdir path = .ok (r, s')) : RmdirResult s path r s' := by
  rw [fsRmdir, bind_eq_ok] at h
  obtain ⟨ci, hci, h⟩ := h
  rw [bind_eq_ok] at h
  obtain ⟨⟨pi, buf⟩, hpi, h⟩ := h
  dsimp only at h
  obtain rfl := translatePathToInum_ok hci
  cases hr : s.resolve 1 path.tokens with
  | inl e =>
    rw [hr, code_inl, if_pos (resolve_error hr).symm] at h
    obtain ⟨rfl, rfl⟩ := Prod.mk.inj (Except.ok.inj h)
    exact .badPath hr
  | inr i =>
    rw [hr, code_inr, if_neg (natCast_not_error i), bind_eq_ok] at h
    obtain ⟨cino, hcino, h⟩ := h
    obtain ⟨-, -, rfl⟩ := inode_ok hcino
    rw [Int.toNat_natCast] at h
    by_cases hd : s.isDir i = true
    swap
    · rw [if_pos (by simpa [isDir] using hd)] at h
      obtain ⟨rfl, rfl⟩ := Prod.mk.inj (Except.ok.inj h)
      exact .notDir hr (by simpa using hd)
    rw [if_neg (by simpa [isDir] using hd), bind_eq_ok] at h
    obtain ⟨block, hblock, h⟩ := h
    obtain ⟨-, rfl⟩ := readBlock_ok hblock
    split at h
    · next hany =>
      obtain ⟨rfl, rfl⟩ := Prod.mk.inj (Except.ok.inj h)
      obtain ⟨j, hj, hv⟩ := List.any_eq_true.mp hany
      exact .notEmpty hr hd (List.mem_range.mp hj) hv
    next hany =>
    have hleaf : ∀ k < 32, (s.entry i k).valid = false := forall_slot_of_not_any hany
    rw [bind_eq_ok] at h
    obtain ⟨t, ht, h⟩ := h
    rw [bind_eq_ok] at h
    obtain ⟨pino, hpino, h⟩ := h
    have hpi0 := (inode_ok hpino).1
    rcases hwf.parent_cases hci hpi with ⟨-, -, rfl⟩ | ⟨e, he, -, -, -, rfl⟩ |
      ⟨p, last, hp, hdir, rfl, -, -, -⟩
    · -- the root is never empty here: `inodes[-EINVAL]`
      exact absurd hpi0 (by decide)
    · have := error_neg he
      omega
    have hchild : s.child p last = .inr i := hp.resolve.symm.trans hr
    obtain ⟨j, -, he⟩ := Wf.edge_of_child hdir hchild
    have hi : s.AllocDir i := ⟨(hwf.edge_child he).1, hd⟩
    have hpi : p ≠ i := he.ne_of_leaf hleaf
    have hblk := hwf.dirBlock_inUse hi
    have hcint := cInt_of_inUse hwf.blocks.numBlocks_lt hblk
    have hge : ((((s.inodes i).directAt 0).toNat : ℕ) : ℤ) ≥ g.startBlock := by exact_mod_cast hblk.1
    obtain rfl := freeABlock_ok ht
    rw [hcint, if_pos hge, Int.toNat_natCast] at h hpino
    obtain ⟨-, -, rfl⟩ := inode_ok hpino
    rw [bind_eq_ok] at h
    obtain ⟨block, hblock, h⟩ := h
    obtain ⟨-, rfl⟩ := readBlock_ok hblock
    rw [bind_eq_ok] at h
    obtain ⟨⟨t, block⟩, ht, h⟩ := h
    simp only [Int.toNat_natCast, inodes_setInode, inodes_writeBlockMap, inodes_setBlockBit,
      update_of_ne hpi] at ht h
    have hstart := (hwf.dirBlock_inUse hdir).1
    obtain ⟨rfl, rfl⟩ := rmdirEntry_ok ht (by
      rw [disk_setInode, disk_writeBlockMap _ hstart]
      exact hwf.slotOfInode_eq he)
    rw [bind_eq_ok] at h
    obtain ⟨t, ht, h⟩ := h
    obtain ⟨-, rfl⟩ := writeBlock_ok ht
    obtain ⟨rfl, rfl⟩ := Prod.mk.inj (Except.ok.inj h)
    refine .removed (j := j) hp hchild hd
      ⟨he, fun _ => hleaf, rfl, Or.inl rfl, rfl, rfl, fun k hk => ?_, fun b => ?_, fun x hx => ?_, rfl⟩ rfl
    · simp only [inodes_writeAllInodes, inodes_setInode, inodes_putBlock, inodes_writeInodeMap,
        inodes_setInodeBit, inodes_writeBlockMap, inodes_setBlockBit]
      by_cases hkp : k = p
      · rw [hkp, update_self]
      · rw [update_of_ne hkp, update_of_ne hk]
    · rcases eq_or_ne b ((s.inodes i).directAt 0).toNat with rfl | hb
      · exact Or.inr ⟨update_self .., .direct 0, owner_dir hi⟩
      · exact Or.inl (update_of_ne hb ..)
    · simp only [disk_writeAllInodes _ hx, disk_setInode, disk_putBlock, disk_writeInodeMap _ hx,
        disk_setInodeBit, disk_writeBlockMap _ hx, disk_writeBlockMap _ hstart, disk_setBlockBit]
      rfl

/-! ## Changes in place -/

/-- The name of slot `j` of the directory `p` is overwritten and the inode `i` it names gets
a new time. -/
structure Renamed (c : Context) (p j i : ℕ) (new : Name) (s s' : FS g) : Prop where
  edge : s.Edge p j i
  fits : Name.Fits new
  unused : ∀ k < 32, (s.entry p k).named new = false
  inodeMap : s'.inodeMap = s.inodeMap
  blockMap : s'.blockMap = s.blockMap
  inodes : s'.inodes = update s.inodes i { s.inodes i with ctime := c.now }
  disk : ∀ x, g.startBlock ≤ x → s'.disk x =
    if x = ((s.inodes p).directAt 0).toNat then
      (s.dirBlock p).setDirent j ((s.entry p j).copyName new)
    else s.disk x

/-- The ways `fs_rename` returns. -/
inductive RenameResult (c : Context) (s : FS g) (srcPath dstPath : Path) : ℤ → FS g → Prop
  | badPath {e : ℤ} (hr : s.resolve 1 srcPath.tokens = .inl e) : RenameResult c s srcPath dstPath e s
  | otherDir : RenameResult c s srcPath dstPath (-EINVAL) s
  | taken {p k : ℕ} {old new : Name} (hp : s.Parent srcPath p old) (hp' : s.Parent dstPath p new)
      (hk : k < 32) (hn : (s.entry p k).named new = true) : RenameResult c s srcPath dstPath (-EEXIST) s
  | renamed {p j i : ℕ} {old new : Name} {s' : FS g} (hp : s.Parent srcPath p old)
      (hp' : s.Parent dstPath p new) (hi : s.child p old = .inr i)
      (hj : findEntry (s.dirBlock p) old = some j) (h : Renamed c p j i new s s') :
      RenameResult c s srcPath dstPath 0 s'

theorem renameEntry_ok {b b' : Block} {i j : ℕ} {new : Name}
    (h : renameEntry c s b i new = .ok (s', b')) (hj : slotOfInode b i = some j) :
    s' = (s.setInode i { s.inodes i with ctime := c.now }).writeAllInodes ∧
      b' = b.setDirent j ((b.dirent j).copyName new) := by
  rw [renameEntry, hj] at h
  dsimp only at h
  rw [bind_eq_ok] at h
  obtain ⟨ino, hino, h⟩ := h
  obtain ⟨-, -, rfl⟩ := inode_ok hino
  have h := Except.ok.inj h
  exact ⟨(congrArg Prod.fst h).symm, (congrArg Prod.snd h).symm⟩

theorem fsRename_ok (hwf : Wf s) {srcPath dstPath : Path}
    (h : s.fsRename c srcPath dstPath = .ok (r, s')) : RenameResult c s srcPath dstPath r s' := by
  rw [fsRename, bind_eq_ok] at h
  obtain ⟨⟨pi, buf⟩, hpi, h⟩ := h
  dsimp only at h
  rw [bind_eq_ok] at h
  obtain ⟨ci, hci, h⟩ := h
  rw [bind_eq_ok] at h
  obtain ⟨⟨pi', buf'⟩, hpi', h⟩ := h
  dsimp only at h
  obtain rfl := translatePathToInum_ok hci
  cases hr : s.resolve 1 srcPath.tokens with
  | inl e =>
    rw [hr, code_inl, if_pos (resolve_error hr).symm] at h
    obtain ⟨rfl, rfl⟩ := Prod.mk.inj (Except.ok.inj h)
    exact .badPath hr
  | inr i =>
    rw [hr, code_inr, if_neg (natCast_not_error i)] at h
    by_cases hpp : pi = pi'
    swap
    · rw [if_pos hpp] at h
      obtain ⟨rfl, rfl⟩ := Prod.mk.inj (Except.ok.inj h)
      exact .otherDir
    subst hpp
    rw [if_neg (not_not.mpr rfl), bind_eq_ok] at h
    obtain ⟨pino, hpino, h⟩ := h
    have hpi0 := (inode_ok hpino).1
    rcases hwf.parent_cases hci hpi with ⟨-, -, rfl⟩ | ⟨e, he, -, -, -, rfl⟩ |
      ⟨p, old, hp, hdir, rfl, -, -, -⟩
    · exact absurd hpi0 (by decide)
    · have := error_neg he
      omega
    obtain ⟨new, hp', hlen, rfl⟩ := parent_of_getParentInum hpi'
    have hchild : s.child p old = .inr i := hp.resolve.symm.trans hr
    obtain ⟨j, hj, he⟩ := Wf.edge_of_child hdir hchild
    obtain ⟨-, -, rfl⟩ := inode_ok hpino
    rw [bind_eq_ok] at h
    obtain ⟨block, hblock, h⟩ := h
    obtain ⟨-, rfl⟩ := readBlock_ok hblock
    rw [bind_eq_ok] at h
    obtain ⟨name, hname, h⟩ := h
    obtain ⟨hfits, rfl⟩ := hp'.name_eq hlen hname
    rw [Int.toNat_natCast] at h
    split at h
    · next hany =>
      obtain ⟨rfl, rfl⟩ := Prod.mk.inj (Except.ok.inj h)
      obtain ⟨k, hk, hn⟩ := List.any_eq_true.mp hany
      exact .taken hp hp' (List.mem_range.mp hk) hn
    next hany =>
    have hunused : ∀ k < 32, (s.entry p k).named name = false := forall_slot_of_not_any hany
    rw [bind_eq_ok] at h
    obtain ⟨⟨t, block⟩, ht, h⟩ := h
    obtain ⟨rfl, rfl⟩ := renameEntry_ok ht (hwf.slotOfInode_eq he)
    dsimp only at h
    rw [bind_eq_ok] at h
    obtain ⟨t, ht, h⟩ := h
    obtain ⟨-, rfl⟩ := writeBlock_ok ht
    obtain ⟨rfl, rfl⟩ := Prod.mk.inj (Except.ok.inj h)
    refine .renamed hp hp' hchild hj ⟨he, hfits, hunused, rfl, rfl, rfl, fun x hx => ?_⟩
    simp only [disk_putBlock, disk_writeAllInodes _ hx, disk_setInode]
    rfl

/-- The ways `fs_chmod` and `fs_utime` return: they change the inode a path leads to. -/
inductive TouchResult (f : Inode → Inode) (s : FS g) (path : Path) : ℤ → FS g → Prop
  | badPath {e : ℤ} (hr : s.resolve 1 path.tokens = .inl e) : TouchResult f s path e s
  | touched {i : ℕ} (hr : s.resolve 1 path.tokens = .inr i) :
      TouchResult f s path 0 (s.setInode i (f (s.inodes i))).writeAllInodes

theorem fsChmod_ok {mode : UInt32} (h : s.fsChmod c path mode = .ok (r, s')) :
    TouchResult (fun ino => { ino with mode := chmodMode ino.mode mode, ctime := c.now })
      s path r s' := by
  rw [fsChmod, bind_eq_ok] at h
  obtain ⟨o, ho, h⟩ := h
  rcases fsGetattr_ok ho with ⟨e, hr, rfl⟩ | ⟨i, hr, rfl⟩
  · obtain ⟨rfl, rfl⟩ := Prod.mk.inj (Except.ok.inj h)
    exact .badPath hr
  · dsimp only [fsSetSuperbockAttrs] at h
    rw [bind_eq_ok] at h
    obtain ⟨ino, hino, h⟩ := h
    obtain ⟨-, -, rfl⟩ := inode_ok hino
    obtain ⟨rfl, rfl⟩ := Prod.mk.inj (Except.ok.inj h)
    exact .touched hr

theorem fsUtime_ok {modtime : UInt32} (h : s.fsUtime path modtime = .ok (r, s')) :
    TouchResult (fun ino => { ino with mtime := modtime }) s path r s' := by
  rw [fsUtime, bind_eq_ok] at h
  obtain ⟨o, ho, h⟩ := h
  rcases fsGetattr_ok ho with ⟨e, hr, rfl⟩ | ⟨i, hr, rfl⟩
  · obtain ⟨rfl, rfl⟩ := Prod.mk.inj (Except.ok.inj h)
    exact .badPath hr
  · dsimp only [fsSetSuperbockAttrs] at h
    rw [bind_eq_ok] at h
    obtain ⟨ino, hino, h⟩ := h
    obtain ⟨-, -, rfl⟩ := inode_ok hino
    obtain ⟨rfl, rfl⟩ := Prod.mk.inj (Except.ok.inj h)
    exact .touched hr

end FS

end Fsx600
