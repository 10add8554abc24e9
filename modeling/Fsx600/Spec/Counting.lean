import Fsx600.Spec.WriteLoops

/-!
# Counting the bytes of a write

Each pass adds the bytes it copies to the size in the local inode and to
`total_bytes_written`, and stores the inode.  So at the end of a write the size has grown by
the bytes written, whatever the offset was and wherever the bytes went.

This takes nothing of the state: it holds as well where a new level-1 block names blocks that
are not the file's.
-/

namespace Fsx600

open Checked

namespace FS

variable {g : Layout} {inum n k x i j : ℕ} {v w u : WriteVars g} {f : Flow g} {s t : FS g}
  {outer : UInt32} {indirect1 indirect2 : Block}

/-- After `n` passes at most: what was copied is counted, in the stored inode too. -/
structure Counted (inum n : ℕ) (v w : WriteVars g) : Prop where
  le : v.total ≤ w.total
  bound : w.total ≤ v.total + 1024 * n
  size : w.inode.size = v.inode.size + Int32.ofNat (w.total - v.total)
  stored : v.inode = v.fs.inodes inum → w.inode = w.fs.inodes inum

theorem Counted.refl (inum : ℕ) (v : WriteVars g) : Counted inum 0 v v where
  le := le_rfl
  bound := le_rfl
  size := by
    rw [Nat.sub_self]
    exact (Int32.add_zero _).symm
  stored := id

theorem Counted.trans (h : Counted inum n v w) (h' : Counted inum k w u) : Counted inum (n + k) v u where
  le := h.le.trans h'.le
  bound := by
    have h1 := h.bound
    have h2 := h'.bound
    omega
  size := by
    have h1 := h.le
    have h2 := h'.le
    have hsum : u.total - v.total = w.total - v.total + (u.total - w.total) := by omega
    rw [h'.size, h.size, hsum, Int32.ofNat_add, Int32.add_assoc]
  stored := fun hv => h'.stored (h.stored hv)

theorem Counted.mono (h : Counted inum n v w) (hnk : n ≤ k) : Counted inum k v w :=
  ⟨h.le, h.bound.trans (by omega), h.size, h.stored⟩

/-- New local variables that count nothing. -/
theorem Counted.same (htotal : w.total = v.total) (hsize : w.inode.size = v.inode.size)
    (hstored : v.inode = v.fs.inodes inum → w.inode = w.fs.inodes inum) : Counted inum 0 v w where
  le := htotal.ge
  bound := htotal.le
  size := by
    rw [hsize, htotal, Nat.sub_self]
    exact (Int32.add_zero _).symm
  stored := hstored

/-- One pass, of whichever loop. -/
theorem counted_pass {ino : Inode} {offset start : ℕ} {last : FS g → FS g}
    (hsize : ino.size = v.inode.size) (hlast : ∀ r, (last r).inodes = r.inodes) :
    Counted inum 1 v (pass inum v ino offset start t last) where
  le := Nat.le_add_right _ _
  bound := by
    rw [pass_total, fillCount]
    split <;> omega
  size := by rw [pass_total, pass_inode, Nat.add_sub_cancel_left, hsize]
  stored := fun _ => by
    rw [pass_fs, hlast, inodes_writeAllInodes, inodes_setInode, Function.update_self]

/-- What was copied is counted when control leaves a loop. -/
def Flow.Counts (inum n : ℕ) (v : WriteVars g) : Flow g → Prop
  | .cleanup total t => 0 ≤ total → ∃ w, Counted inum n v w ∧ total = w.total ∧ t = w.fs
  | .next w => Counted inum n v w

theorem Flow.Counts.after (h : f.Counts inum k w) (hc : Counted inum n v w) : f.Counts inum (n + k) v := by
  cases f with
  | cleanup total t =>
    intro h0
    obtain ⟨u, hu, htotal, ht⟩ := h h0
    exact ⟨u, hc.trans hu, htotal, ht⟩
  | next u => exact hc.trans h

theorem Flow.Counts.mono (h : f.Counts inum n v) (hnk : n ≤ k) : f.Counts inum k v := by
  cases f with
  | cleanup total t =>
    intro h0
    obtain ⟨u, hu, htotal, ht⟩ := h h0
    exact ⟨u, hu.mono hnk, htotal, ht⟩
  | next u => exact Counted.mono h hnk

/-- A full disk is no count. -/
theorem counts_full (v : WriteVars g) (s : FS g) : (Flow.cleanup (-ENOSPC) s).Counts inum n v := by
  intro h0
  exact absurd h0 (by decide)

/-- After a pass the write is over or the loop goes on. -/
theorem Counted.ends (hc : Counted inum 1 v w) {rest : Except Fault (Flow g)} (h : PassEnds w rest f)
    (hrest : rest = .ok f → f.Counts inum n w) : f.Counts inum (n + 1) v := by
  rcases h with ⟨-, rfl⟩ | ⟨-, hr⟩
  · exact fun _ => ⟨w, hc.mono (by omega), rfl, rfl⟩
  · exact ((hrest hr).after hc).mono (by omega)

/-! ## The loops -/

theorem writeDirect_counts (h : writeDirect inum n i v = .ok f) : f.Counts inum n v := by
  induction n generalizing i v with
  | zero =>
    obtain rfl := Except.ok.inj h
    exact Counted.same rfl rfl id
  | succ n ih =>
    rcases writeDirect_succ h with ⟨-, -, rfl⟩ | ⟨p, block, start, t, -, hends⟩
    · exact counts_full v _
    · have hc : Counted inum 1 v (passDirect inum i v p block start t) := counted_pass rfl fun _ => rfl
      exact hc.ends hends ih

theorem writeLevel1_counts (h : writeLevel1 inum n i indirect1 v = .ok f) : f.Counts inum n v := by
  induction n generalizing i v indirect1 with
  | zero =>
    obtain rfl := Except.ok.inj h
    exact Counted.same rfl rfl id
  | succ n ih =>
    rcases writeLevel1_succ h with ⟨-, -, rfl⟩ | ⟨p, block, start, t, -, hends⟩
    · exact counts_full v _
    · have hc : Counted inum 1 v (passLevel1 inum i indirect1 v p block start t) := counted_pass rfl fun _ => rfl
      exact hc.ends hends ih

theorem writeInner_counts (h : writeInner inum outer n j indirect1 v = .ok f) : f.Counts inum n v := by
  induction n generalizing j v indirect1 with
  | zero =>
    obtain rfl := Except.ok.inj h
    exact Counted.refl inum v
  | succ n ih =>
    rcases writeInner_succ h with ⟨-, -, rfl⟩ | ⟨p, block, start, t, -, hends⟩
    · exact counts_full v _
    · have hc : Counted inum 1 v (passInner inum j outer indirect1 v p block start t) := counted_pass rfl fun _ => rfl
      exact hc.ends hends ih

theorem writeOuter_counts (h : writeOuter inum n i j indirect2 v = .ok f) : f.Counts inum (256 * n) v := by
  induction n generalizing i j v indirect2 with
  | zero =>
    obtain rfl := Except.ok.inj h
    exact Counted.refl inum v
  | succ n ih =>
    rw [writeOuter, bind_eq_ok] at h
    obtain ⟨o, ho, h⟩ := h
    -- the passes over one level-1 block, and then the next
    have hinner : ∀ {outer : UInt32} {indirect2 : Block} {s : FS g},
        (v.inode = v.fs.inodes inum → v.inode = s.inodes inum) →
        (do let indirect1 ← s.readBlock outer.toNat
            match ← writeInner inum outer (256 - j) j indirect1 { v with fs := s } with
            | .cleanup total s => Except.ok (Flow.cleanup total s)
            | .next w => writeOuter inum n (i + 1) 0 indirect2 w) = .ok f →
        f.Counts inum (256 * (n + 1)) v := by
      intro outer indirect2 s hinodes hr
      rw [bind_eq_ok] at hr
      obtain ⟨indirect1, -, hr⟩ := hr
      rw [bind_eq_ok] at hr
      obtain ⟨f', hf', hr⟩ := hr
      have hc : Counted inum 0 v { v with fs := s } := Counted.same rfl rfl hinodes
      have hf := (writeInner_counts hf').after hc
      cases f' with
      | cleanup total s =>
        obtain rfl := Except.ok.inj hr
        exact hf.mono (by omega)
      | next w => exact ((ih hr).after hf).mono (by omega)
    cases outerBlock_ok ho with
    | full =>
      obtain rfl := Except.ok.inj h
      exact counts_full v _
    | @fresh b =>
      exact hinner (s := (v.fs.takeBlock b).putBlock v.inode.indir2.toNat
        (indirect2.setWord i (UInt32.ofNat b))) id h
    | mapped => exact hinner (s := v.fs) id h

/-- The block of pointers in `indir_1` or `indir_2` is taken, if it is missing. -/
theorem counts_enter {q : UInt32} (set : UInt32 → Inode) (hset : ∀ p, (set p).size = v.inode.size)
    (start : WriteVars g → Except Fault (Flow g))
    (h : (if q = 0 then do
        match ← v.fs.newBlock with
        | none => .ok (.cleanup (-ENOSPC) v.fs)
        | some (ret, s) => do
          let inode := set ret
          let s := (s.setInode inum inode).writeAllInodes
          let s ← s.writeBlock ret.toNat Block.zero
          start { v with fs := s, inode := inode }
      else start v) = .ok f)
    (hstart : ∀ w : WriteVars g, start w = .ok f → f.Counts inum n w) : f.Counts inum n v := by
  split at h
  · rw [bind_eq_ok] at h
    obtain ⟨o, ho, h⟩ := h
    cases o with
    | none =>
      obtain rfl := Except.ok.inj h
      exact counts_full v _
    | some y =>
      obtain ⟨ret, s⟩ := y
      dsimp only at h
      rw [bind_eq_ok] at h
      obtain ⟨t, ht, h⟩ := h
      obtain ⟨-, rfl⟩ := writeBlock_ok ht
      have hc : Counted inum 0 v { v with
          fs := ((s.setInode inum (set ret)).writeAllInodes).putBlock ret.toNat Block.zero
          inode := set ret } := by
        refine Counted.same rfl (hset ret) fun _ => ?_
        rw [inodes_putBlock, inodes_writeAllInodes, inodes_setInode, Function.update_self]
      exact ((hstart _ h).after hc).mono (by omega)
  · exact hstart v h

theorem fromLevel2_counts (h : fromLevel2 inum x v = .ok f) : f.Counts inum 65536 v := by
  rw [fromLevel2] at h
  refine counts_enter (fun p => { v.inode with indir2 := p }) (fun _ => rfl) (fun w => do
    let indirect2 ← w.fs.readBlock w.inode.indir2.toNat
    writeOuter inum (256 - (x - 262) / 256) ((x - 262) / 256) ((x - 262) % 256) indirect2 w) h
    fun w hr => ?_
  rw [bind_eq_ok] at hr
  obtain ⟨indirect2, -, hr⟩ := hr
  exact (writeOuter_counts hr).mono (by omega)

theorem fromLevel1_counts (h : fromLevel1 inum x v = .ok f) : f.Counts inum 65792 v := by
  rw [fromLevel1] at h
  refine counts_enter (fun p => { v.inode with indir1 := p }) (fun _ => rfl) (fun w => do
    let indirect1 ← w.fs.readBlock w.inode.indir1.toNat
    match ← writeLevel1 inum (256 - (x - 6)) (x - 6) indirect1 w with
    | .cleanup total s => .ok (.cleanup total s)
    | .next u => fromLevel2 inum 262 u) h fun w hr => ?_
  rw [bind_eq_ok] at hr
  obtain ⟨indirect1, -, hr⟩ := hr
  rw [bind_eq_ok] at hr
  obtain ⟨f', hf', hr⟩ := hr
  have hf := writeLevel1_counts hf'
  cases f' with
  | cleanup total s =>
    obtain rfl := Except.ok.inj hr
    exact hf.mono (by omega)
  | next u => exact ((fromLevel2_counts hr).after hf).mono (by omega)

theorem fromDirect_counts (h : fromDirect inum x v = .ok f) : f.Counts inum 65798 v := by
  rw [fromDirect, bind_eq_ok] at h
  obtain ⟨f', hf', h⟩ := h
  have hf := writeDirect_counts hf'
  cases f' with
  | cleanup total s =>
    obtain rfl := Except.ok.inj h
    exact hf.mono (by omega)
  | next u => exact ((fromLevel1_counts h).after hf).mono (by omega)

theorem writeBlocks_counts (h : writeBlocks inum x v = .ok f) : f.Counts inum 65798 v := by
  rw [writeBlocks] at h
  split at h
  · exact fromDirect_counts h
  · split at h
    · exact (fromLevel1_counts h).mono (by omega)
    · split at h
      · exact (fromLevel2_counts h).mono (by omega)
      · exact fromDirect_counts h

/-- **The size after the loops**: it has grown by the bytes written, unless the disk was full. -/
theorem size_of_writeBlocks (hv : v.inode = v.fs.inodes inum) (hv0 : v.total = 0)
    (h : writeBlocks inum x v = .ok f) (h0 : 0 ≤ f.total) :
    (f.state.inodes inum).size = v.inode.size + Int32.ofNat f.total.toNat ∧
      f.total ≤ 65798 * 1024 := by
  obtain ⟨w, hw, htotal, hstate⟩ : ∃ w, Counted inum 65798 v w ∧ f.total = w.total ∧ f.state = w.fs := by
    have hcounts := writeBlocks_counts h
    cases f with
    | cleanup total t => exact hcounts h0
    | next w => exact ⟨w, hcounts, rfl, rfl⟩
  have hsize := hw.size
  have hbound := hw.bound
  rw [hw.stored hv, hv0, Nat.sub_zero] at hsize
  rw [hv0] at hbound
  refine ⟨?_, by omega⟩
  rw [hstate, hsize, htotal, Int.toNat_natCast]

end FS

end Fsx600
