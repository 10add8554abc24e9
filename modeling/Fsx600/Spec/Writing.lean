import Fsx600.Spec.Primitives
import Fsx600.Model.File

/-!
# The pieces of the write loops

The three loops of `fs_write` have the same head, `slotBlock`: it finds the block of a
slot or takes the lowest free one.  What it can do is said here once.  Each loop then has
a function for the variables after one pass (`passDirect`, `passLevel1`, `passInner`) and a
lemma that says what one pass is: the disk is full, or the pass ends the write, or the loop
goes on from the variables after the pass.
-/

namespace Fsx600

open Checked Function

namespace FS

variable {g : Layout} {s s' : FS g}

/-- The state a flow carries. -/
def Flow.state : Flow g → FS g
  | .cleanup _ s => s
  | .next v => v.fs

@[simp] theorem Flow.state_cleanup (total : ℤ) (s : FS g) : (Flow.cleanup total s).state = s := rfl

@[simp] theorem Flow.state_next (v : WriteVars g) : (Flow.next v).state = v.fs := rfl

/-- The state after a block is taken and the block map flushed. -/
def takeBlock (s : FS g) (b : ℕ) : FS g := (s.setBlockBit b true).writeBlockMap

@[simp] theorem inodeMap_takeBlock (s : FS g) (b : ℕ) : (s.takeBlock b).inodeMap = s.inodeMap := rfl

@[simp] theorem blockMap_takeBlock (s : FS g) (b : ℕ) :
    (s.takeBlock b).blockMap = update s.blockMap b true := rfl

@[simp] theorem inodes_takeBlock (s : FS g) (b : ℕ) : (s.takeBlock b).inodes = s.inodes := rfl

theorem disk_takeBlock (s : FS g) (b : ℕ) {x : ℕ} (hx : g.startBlock ≤ x) :
    (s.takeBlock b).disk x = s.disk x :=
  disk_writeBlockMap _ hx

/-- `b` is the lowest free block. -/
structure LowestFree (s : FS g) (b : ℕ) : Prop where
  free : s.Free b
  least : ∀ x < b, ¬ s.Free x

theorem newBlock_ok {o : Option (UInt32 × FS g)} (h : s.newBlock = .ok o) :
    (o = none ∧ ∀ b, ¬ s.Free b) ∨
      ∃ b, s.LowestFree b ∧ o = some (UInt32.ofNat b, s.takeBlock b) := by
  rw [newBlock, bind_eq_ok] at h
  obtain ⟨o', ho', h⟩ := h
  rcases getFreeBlock_ok ho' with ⟨rfl, hfull⟩ | ⟨b, hb, hleast, rfl⟩
  · exact Or.inl ⟨(Except.ok.inj h).symm, hfull⟩
  · dsimp only at h
    rw [bind_eq_ok] at h
    obtain ⟨blk, -, h⟩ := h
    exact Or.inr ⟨b, ⟨hb, hleast⟩, (Except.ok.inj h).symm⟩

/-- What the head of a loop found. -/
inductive SlotBlock (v : WriteVars g) (p : UInt32) : Option (UInt32 × Block × ℕ × FS g) → Prop
  | full (hp : p = 0) (hfull : ∀ b, ¬ v.fs.Free b) : SlotBlock v p none
  | fresh {b : ℕ} (hp : p = 0) (hb : v.fs.LowestFree b) :
      SlotBlock v p (some (UInt32.ofNat b, Block.zero, 0, v.fs.takeBlock b))
  | mapped (hp : p ≠ 0) :
      SlotBlock v p (some (p, v.fs.disk p.toNat, v.offset % 1024, v.fs))

theorem slotBlock_ok {v : WriteVars g} {p : UInt32} {o : Option (UInt32 × Block × ℕ × FS g)}
    (h : slotBlock v p = .ok o) : SlotBlock v p o := by
  rw [slotBlock] at h
  split at h
  · next hp =>
    rw [bind_eq_ok] at h
    obtain ⟨o', ho', h⟩ := h
    rcases newBlock_ok ho' with ⟨rfl, hfull⟩ | ⟨b, hb, rfl⟩
    · obtain rfl := Except.ok.inj h
      exact .full hp hfull
    · obtain rfl := Except.ok.inj h
      exact .fresh hp hb
  · next hp =>
    rw [bind_eq_ok] at h
    obtain ⟨blk, hblk, h⟩ := h
    obtain ⟨-, rfl⟩ := readBlock_ok hblk
    obtain rfl := Except.ok.inj h
    exact .mapped hp

/-- What the head of the loop over level-1 blocks found. -/
inductive OuterBlock (s : FS g) (ino : Inode) (indirect2 : Block) (i : ℕ) :
    Option (UInt32 × Block × FS g) → Prop
  | full (hp : indirect2.word i = 0) (hfull : ∀ b, ¬ s.Free b) : OuterBlock s ino indirect2 i none
  | fresh {b : ℕ} (hp : indirect2.word i = 0) (hb : s.LowestFree b) :
      OuterBlock s ino indirect2 i (some (UInt32.ofNat b, indirect2.setWord i (UInt32.ofNat b),
        (s.takeBlock b).putBlock ino.indir2.toNat (indirect2.setWord i (UInt32.ofNat b))))
  | mapped (hp : indirect2.word i ≠ 0) :
      OuterBlock s ino indirect2 i (some (indirect2.word i, indirect2, s))

theorem outerBlock_ok {ino : Inode} {indirect2 : Block} {i : ℕ} {o : Option (UInt32 × Block × FS g)}
    (h : s.outerBlock ino indirect2 i = .ok o) : OuterBlock s ino indirect2 i o := by
  rw [outerBlock] at h
  split at h
  · next hp =>
    rw [bind_eq_ok] at h
    obtain ⟨o', ho', h⟩ := h
    rcases newBlock_ok ho' with ⟨rfl, hfull⟩ | ⟨b, hb, rfl⟩
    · obtain rfl := Except.ok.inj h
      exact .full hp hfull
    · dsimp only at h
      rw [bind_eq_ok] at h
      obtain ⟨t, ht, h⟩ := h
      obtain ⟨-, rfl⟩ := writeBlock_ok ht
      obtain rfl := Except.ok.inj h
      exact .fresh hp hb
  · next hp =>
    obtain rfl := Except.ok.inj h
    exact .mapped hp

/-! ## One pass -/

/-- What the three loops have in common: a block filled, with the inode stored.  `ino` is
the local inode with the slot set, `t` the state with the block taken and `last` what is
written to disk after the inode. -/
def pass (inum : ℕ) (v : WriteVars g) (ino : Inode) (offset start : ℕ) (t : FS g)
    (last : FS g → FS g) : WriteVars g :=
  let w := fill { v with fs := t, inode := ino, offset := offset } start
  { w with fs := last ((t.setInode inum w.inode).writeAllInodes) }

/-- The contents a pass gives to the block it fills. -/
def passBlock (v : WriteVars g) (block : Block) (start : ℕ) : Block :=
  block.memcpy start v.buf (fillCount v.len start)

section

variable (inum : ℕ) (v : WriteVars g) (ino : Inode) (offset start : ℕ) (t : FS g) (last : FS g → FS g)

@[simp] theorem pass_len : (pass inum v ino offset start t last).len =
    v.len - fillCount v.len start := rfl

@[simp] theorem pass_total : (pass inum v ino offset start t last).total =
    v.total + fillCount v.len start := rfl

@[simp] theorem pass_offset : (pass inum v ino offset start t last).offset = offset := rfl

@[simp] theorem pass_buf : (pass inum v ino offset start t last).buf =
    fun x => v.buf (fillCount v.len start + x) := rfl

@[simp] theorem pass_inode : (pass inum v ino offset start t last).inode =
    { ino with size := ino.size + Int32.ofNat (fillCount v.len start) } := rfl

theorem pass_fs : (pass inum v ino offset start t last).fs =
    last ((t.setInode inum (pass inum v ino offset start t last).inode).writeAllInodes) := rfl

end

/-- The variables after a pass of the loop over the direct blocks. -/
def passDirect (inum i : ℕ) (v : WriteVars g) (p : UInt32) (block : Block) (start : ℕ) (t : FS g) :
    WriteVars g :=
  pass inum v (v.inode.setDirect i p) (if start = 0 then 0 else v.offset) start t
    (·.putBlock p.toNat (passBlock v block start))

/-- The variables after a pass of the loop over the entries of `indir_1`. -/
def passLevel1 (inum i : ℕ) (indirect1 : Block) (v : WriteVars g) (p : UInt32) (block : Block)
    (start : ℕ) (t : FS g) : WriteVars g :=
  pass inum v v.inode (if start = 0 then 0 else v.offset) start t
    fun s => (s.putBlock v.inode.indir1.toNat (indirect1.setWord i p)).putBlock p.toNat
      (passBlock v block start)

/-- The variables after a pass of the loop over the entries of a level-1 block. -/
def passInner (inum j : ℕ) (outer : UInt32) (indirect1 : Block) (v : WriteVars g) (p : UInt32)
    (block : Block) (start : ℕ) (t : FS g) : WriteVars g :=
  pass inum v v.inode v.offset start t
    fun s => (s.putBlock p.toNat (passBlock v block start)).putBlock outer.toNat
      (indirect1.setWord j p)

/-- After a pass the write is over or the loop goes on. -/
def PassEnds (w : WriteVars g) (rest : Except Fault (Flow g)) (f : Flow g) : Prop :=
  w.len = 0 ∧ f = .cleanup w.total w.fs ∨ w.len ≠ 0 ∧ rest = .ok f

theorem passEnds_of_ite {w : WriteVars g} {rest : Except Fault (Flow g)} {f : Flow g}
    (h : (if w.len = 0 then .ok (.cleanup w.total w.fs) else rest) = .ok f) : PassEnds w rest f := by
  split at h
  · next hlen => exact Or.inl ⟨hlen, (Except.ok.inj h).symm⟩
  · next hlen => exact Or.inr ⟨hlen, h⟩

section Equations

variable {inum n i j : ℕ} {v : WriteVars g} {p outer : UInt32} {block indirect1 : Block} {start : ℕ}
  {t : FS g}

theorem writeDirect_eq (hb : slotBlock v (v.inode.directAt i) = .ok (some (p, block, start, t)))
    (hp : p.toNat < g.nblks) : writeDirect inum (n + 1) i v =
      if (passDirect inum i v p block start t).len = 0 then
        .ok (.cleanup (passDirect inum i v p block start t).total (passDirect inum i v p block start t).fs)
      else writeDirect inum n (i + 1) (passDirect inum i v p block start t) := by
  rw [writeDirect, hb, ok_bind]
  dsimp only
  rw [writeBlock, if_pos hp]
  rfl

theorem writeLevel1_eq (hb : slotBlock v (indirect1.word i) = .ok (some (p, block, start, t)))
    (hp : p.toNat < g.nblks) (h1 : v.inode.indir1.toNat < g.nblks) :
    writeLevel1 inum (n + 1) i indirect1 v =
      if (passLevel1 inum i indirect1 v p block start t).len = 0 then
        .ok (.cleanup (passLevel1 inum i indirect1 v p block start t).total
          (passLevel1 inum i indirect1 v p block start t).fs)
      else writeLevel1 inum n (i + 1) (indirect1.setWord i p)
        (passLevel1 inum i indirect1 v p block start t) := by
  rw [writeLevel1, hb, ok_bind]
  dsimp only
  rw [writeBlock, if_pos (by exact h1), ok_bind, writeBlock, if_pos hp]
  rfl

theorem writeInner_eq (hb : slotBlock v (indirect1.word j) = .ok (some (p, block, start, t)))
    (hp : p.toNat < g.nblks) (ho : outer.toNat < g.nblks) :
    writeInner inum outer (n + 1) j indirect1 v =
      if (passInner inum j outer indirect1 v p block start t).len = 0 then
        .ok (.cleanup (passInner inum j outer indirect1 v p block start t).total
          (passInner inum j outer indirect1 v p block start t).fs)
      else writeInner inum outer n (j + 1) (indirect1.setWord j p)
        (passInner inum j outer indirect1 v p block start t) := by
  rw [writeInner, hb, ok_bind]
  dsimp only
  rw [writeBlock, if_pos hp, ok_bind, writeBlock, if_pos ho]
  rfl

end Equations

/-- One pass of the loop over the direct blocks. -/
theorem writeDirect_succ {inum n i : ℕ} {v : WriteVars g} {f : Flow g}
    (h : writeDirect inum (n + 1) i v = .ok f) :
    (v.inode.directAt i = 0 ∧ (∀ b, ¬ v.fs.Free b) ∧ f = .cleanup (-ENOSPC) v.fs) ∨
      ∃ p block start t, SlotBlock v (v.inode.directAt i) (some (p, block, start, t)) ∧
        PassEnds (passDirect inum i v p block start t)
          (writeDirect inum n (i + 1) (passDirect inum i v p block start t)) f := by
  have hloop := h
  rw [writeDirect, bind_eq_ok] at h
  obtain ⟨o, ho, h⟩ := h
  cases o with
  | none =>
    cases slotBlock_ok ho with
    | full hp hfull => exact Or.inl ⟨hp, hfull, (Except.ok.inj h).symm⟩
  | some x =>
    obtain ⟨p, block, start, t⟩ := x
    dsimp only at h
    rw [bind_eq_ok] at h
    obtain ⟨u, hu, -⟩ := h
    rw [writeDirect_eq ho (writeBlock_ok hu).1] at hloop
    exact Or.inr ⟨p, block, start, t, slotBlock_ok ho, passEnds_of_ite hloop⟩

/-- One pass of the loop over the entries of `indir_1`. -/
theorem writeLevel1_succ {inum n i : ℕ} {indirect1 : Block} {v : WriteVars g} {f : Flow g}
    (h : writeLevel1 inum (n + 1) i indirect1 v = .ok f) :
    (indirect1.word i = 0 ∧ (∀ b, ¬ v.fs.Free b) ∧ f = .cleanup (-ENOSPC) v.fs) ∨
      ∃ p block start t, SlotBlock v (indirect1.word i) (some (p, block, start, t)) ∧
        PassEnds (passLevel1 inum i indirect1 v p block start t)
          (writeLevel1 inum n (i + 1) (indirect1.setWord i p)
            (passLevel1 inum i indirect1 v p block start t)) f := by
  have hloop := h
  rw [writeLevel1, bind_eq_ok] at h
  obtain ⟨o, ho, h⟩ := h
  cases o with
  | none =>
    cases slotBlock_ok ho with
    | full hp hfull => exact Or.inl ⟨hp, hfull, (Except.ok.inj h).symm⟩
  | some x =>
    obtain ⟨p, block, start, t⟩ := x
    dsimp only at h
    rw [bind_eq_ok] at h
    obtain ⟨u, hu, h⟩ := h
    rw [bind_eq_ok] at h
    obtain ⟨w, hw, -⟩ := h
    rw [writeLevel1_eq ho (writeBlock_ok hw).1 (writeBlock_ok hu).1] at hloop
    exact Or.inr ⟨p, block, start, t, slotBlock_ok ho, passEnds_of_ite hloop⟩

/-- One pass of the loop over the entries of a level-1 block. -/
theorem writeInner_succ {inum n j : ℕ} {outer : UInt32} {indirect1 : Block} {v : WriteVars g}
    {f : Flow g} (h : writeInner inum outer (n + 1) j indirect1 v = .ok f) :
    (indirect1.word j = 0 ∧ (∀ b, ¬ v.fs.Free b) ∧ f = .cleanup (-ENOSPC) v.fs) ∨
      ∃ p block start t, SlotBlock v (indirect1.word j) (some (p, block, start, t)) ∧
        PassEnds (passInner inum j outer indirect1 v p block start t)
          (writeInner inum outer n (j + 1) (indirect1.setWord j p)
            (passInner inum j outer indirect1 v p block start t)) f := by
  have hloop := h
  rw [writeInner, bind_eq_ok] at h
  obtain ⟨o, ho, h⟩ := h
  cases o with
  | none =>
    cases slotBlock_ok ho with
    | full hp hfull => exact Or.inl ⟨hp, hfull, (Except.ok.inj h).symm⟩
  | some x =>
    obtain ⟨p, block, start, t⟩ := x
    dsimp only at h
    rw [bind_eq_ok] at h
    obtain ⟨u, hu, h⟩ := h
    rw [bind_eq_ok] at h
    obtain ⟨w, hw, -⟩ := h
    rw [writeInner_eq ho (writeBlock_ok hu).1 (writeBlock_ok hw).1] at hloop
    exact Or.inr ⟨p, block, start, t, slotBlock_ok ho, passEnds_of_ite hloop⟩

end FS

end Fsx600
