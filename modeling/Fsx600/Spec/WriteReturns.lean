import Fsx600.Spec.WriteLoops
import Fsx600.Spec.Returns

/-!
# A write returns

No pass of the loops of `fs_write` leaves the image: a block that a slot holds is in use, and
a new one is in range.  The one exception is a new level-1 block with leftovers in it, which
can name any block at all.

That a write takes no such block is a matter of what it does, which is what `Writes` says: a
write that does might end in any way.  The lemmas on the loops are in passing style for this
reason: the loop returns if the code below it does, and the code below may use that whatever it
does from there, the whole write does as well.
-/

namespace Fsx600

open Checked Function

/-- Control goes to the code below a loop if the loop has not ended the write. -/
def FS.Flow.andThen {g : Layout} (below : FS.WriteVars g → Except Fault (FS.Flow g)) :
    FS.Flow g → Except Fault (FS.Flow g)
  | .cleanup total s => .ok (.cleanup total s)
  | .next v => below v

namespace FS

variable {g : Layout} {inum stop x n i j : ℕ} {v w : WriteVars g} {s t : FS g} {σ : Slot} {p q : UInt32}
  {block : Block} {start : ℕ} {C : Flow g → Prop} {below : WriteVars g → Except Fault (Flow g)}

theorem newBlock_returns (hg : g.Sized) (s : FS g) : Returns s.newBlock := by
  rw [newBlock]
  refine (getFreeBlock_returns hg s).bind fun o ho => ?_
  rcases getFreeBlock_ok ho with ⟨rfl, -⟩ | ⟨b, hb, -, rfl⟩
  · exact returns_ok _
  · dsimp only
    rw [readBlock, if_pos (hb.2.1.trans_le hg.le_nblks)]
    exact returns_ok _

/-- The block that a slot of the file holds lies in the image. -/
theorem Ready.lt_nblks (hg : g.Sized) (hv : Ready inum v) (h0 : v.fs.pointer inum σ ≠ 0) :
    (v.fs.pointer inum σ).toNat < g.nblks :=
  (hv.blocks.sound.used (owner_of_pointer hv.alloc hv.file h0)).2.1.trans_le hg.le_nblks

theorem Ready.slotBlock_returns (hg : g.Sized) (hv : Ready inum v) (hq : q = v.fs.pointer inum σ) :
    Returns (slotBlock v q) := by
  rw [slotBlock]
  split
  · refine (newBlock_returns hg _).bind fun o _ => ?_
    cases o <;> exact returns_ok _
  · next h0 =>
    rw [hq] at h0 ⊢
    rw [readBlock, if_pos (hv.lt_nblks hg h0)]
    exact returns_ok _

/-- So does the block that is stored. -/
theorem Stored.lt_nblks {b : Block} (hg : g.Sized) (hs : s.SoundBlocks) (h : Stored i σ p b n s t) :
    p.toNat < g.nblks :=
  ((h.inUse_iff hs p.toNat).2 (Or.inr rfl)).2.1.trans_le hg.le_nblks

/-! ## The loops -/

/-- The loop over the direct blocks returns if what is below it does. -/
theorem writeDirect_returns (hg : g.Sized) (hni : n + i = 6) (hv : Ready inum v)
    (hC : ∀ f, Writes (fun _ _ => True) inum stop i (if n = 0 then { v with offset := 0 } else v) f → C f)
    (hbelow : ∀ w, Ready inum w → (∀ f, Writes (fun _ _ => True) inum stop 6 w f → C f) →
      Returns (below w)) :
    Returns (writeDirect inum n i v >>= Flow.andThen below) := by
  induction n generalizing i v with
  | zero =>
    obtain rfl : i = 6 := by omega
    exact hbelow _ ⟨hv.blocks, hv.alloc, hv.file, hv.inode⟩ hC
  | succ n ih =>
    have hi : i < 6 := by omega
    obtain ⟨o, ho⟩ := hv.slotBlock_returns hg (q := v.inode.directAt i) (hv.pointer (.direct i))
    cases o with
    | none =>
      rw [writeDirect, ho]
      exact returns_ok _
    | some y =>
      obtain ⟨p, block, start, t⟩ := y
      have hp := hv.passDirect hi (slotBlock_ok ho)
      rw [writeDirect_eq ho (hp.stored.lt_nblks hg hv.blocks)]
      split
      · exact returns_ok _
      · next hlen =>
        refine ih (by omega) hp.ready fun f hf => hC f ?_
        rw [if_neg (Nat.succ_ne_zero n)]
        refine .pass hp hlen ?_
        rwa [resume, if_congr (show i + 1 = 6 ∨ i + 1 = 262 ↔ n = 0 by omega) rfl rfl]

/-- So does the loop over the entries of `indir_1`. -/
theorem writeLevel1_returns (hg : g.Sized) (hni : n + i = 256) (hv : Ready inum v) {indirect1 : Block}
    (htab : Buffered inum .indir1 indirect1 v.fs)
    (hC : ∀ f, Writes (fun _ _ => True) inum stop (i + 6)
      (if n = 0 then { v with offset := 0 } else v) f → C f)
    (hbelow : ∀ w, Ready inum w → (∀ f, Writes (fun _ _ => True) inum stop 262 w f → C f) →
      Returns (below w)) :
    Returns (writeLevel1 inum n i indirect1 v >>= Flow.andThen below) := by
  induction n generalizing i v indirect1 with
  | zero =>
    obtain rfl : i = 256 := by omega
    exact hbelow _ ⟨hv.blocks, hv.alloc, hv.file, hv.inode⟩ hC
  | succ n ih =>
    have hi : i < 256 := by omega
    obtain ⟨o, ho⟩ := hv.slotBlock_returns hg (htab.word i)
    cases o with
    | none =>
      rw [writeLevel1, ho]
      exact returns_ok _
    | some y =>
      obtain ⟨p, block, start, t⟩ := y
      have hp := hv.passLevel1 hi htab (slotBlock_ok ho)
      have hstored := hp.stored
      rw [dataSlot_level1 hi] at hstored
      have h1 : v.inode.indir1.toNat < g.nblks := by
        rw [show v.inode.indir1 = v.fs.pointer inum .indir1 from hv.pointer .indir1]
        exact hv.lt_nblks hg htab.ne_zero
      rw [writeLevel1_eq ho (hp.stored.lt_nblks hg hv.blocks) h1]
      split
      · exact returns_ok _
      · next hlen =>
        refine ih (by omega) hp.ready (htab.setWord hi hstored) fun f hf => hC f ?_
        rw [if_neg (Nat.succ_ne_zero n)]
        refine .pass hp hlen ?_
        rw [resume, if_congr (show i + 6 + 1 = 6 ∨ i + 6 + 1 = 262 ↔ n = 0 by omega) rfl rfl,
          Nat.add_right_comm i 6 1]
        exact hf

/-- The flow is at the label `cleanup`. -/
def Flow.Ended (f : Flow g) : Prop := ∃ total s, f = .cleanup total s

theorem Flow.not_ended_next (w : WriteVars g) : ¬ (Flow.next w).Ended := by
  rintro ⟨total, s, h⟩
  cases h

/-- So does the loop over the entries of a level-1 block. -/
theorem writeInner_returns (hg : g.Sized) (hnj : n + j = 256) (hv : Ready inum v) {indirect1 : Block}
    {outer : UInt32} (ho : v.fs.pointer inum (.outer i) = outer)
    (htab : Buffered inum (.outer i) indirect1 v.fs)
    (hC : ∀ f, Writes (fun _ _ => True) inum stop (262 + 256 * i + j) v f → C f)
    (hbelow : ∀ w, Ready inum w → (∀ τ : Slot, τ.IsTable → w.fs.pointer inum τ = v.fs.pointer inum τ) →
      (∀ f, Writes (fun _ _ => True) inum stop (262 + 256 * (i + 1)) w f → C f) → Returns (below w)) :
    Returns (writeInner inum outer n j indirect1 v >>= Flow.andThen below) := by
  induction n generalizing j v indirect1 with
  | zero =>
    obtain rfl : j = 256 := by omega
    rw [show 262 + 256 * i + 256 = 262 + 256 * (i + 1) by omega] at hC
    exact hbelow v hv (fun _ _ => rfl) hC
  | succ n ih =>
    have hj : j < 256 := by omega
    obtain ⟨o, hslot⟩ := hv.slotBlock_returns hg (htab.word j)
    cases o with
    | none =>
      rw [writeInner, hslot]
      exact returns_ok _
    | some y =>
      obtain ⟨p, block, start, t⟩ := y
      have hp := hv.passInner hj htab (slotBlock_ok hslot)
      rw [ho] at hp
      have hstored := hp.stored
      rw [dataSlot_inner hj] at hstored
      have hlt : outer.toNat < g.nblks := ho ▸ hv.lt_nblks hg htab.ne_zero
      rw [writeInner_eq hslot (hp.stored.lt_nblks hg hv.blocks) hlt]
      split
      · exact returns_ok _
      · next hlen =>
        refine ih (by omega) hp.ready ((hp.pointer_table (τ := .outer i) trivial).trans ho)
          (htab.setWord hj hstored) (fun f hf => hC f (.pass hp hlen ?_)) fun w hw hτ hCw => ?_
        · rw [resume,
            if_neg (show ¬ (262 + 256 * i + j + 1 = 6 ∨ 262 + 256 * i + j + 1 = 262) by omega)]
          exact hf
        · exact hbelow w hw (fun τ ht => (hτ τ ht).trans (hp.pointer_table ht)) hCw

/-- The loop over `indir_2` returns if it ends the write: a level-1 block that is not clean
would let it do anything. -/
theorem writeOuter_returns (hg : g.Sized) (hni : n + i = 256) (hj : j < 256) (hv : Ready inum v)
    {indirect2 : Block} (htab : Buffered inum .indir2 indirect2 v.fs)
    (hC : ∀ f, Writes (fun _ _ => True) inum stop (262 + 256 * i + j) v f → f.Ended) :
    Returns (writeOuter inum n i j indirect2 v) := by
  induction n generalizing i j v indirect2 with
  | zero => exact returns_ok _
  | succ n ih =>
    have hi : i < 256 := by omega
    have hdiv : (262 + 256 * i + j - 262) / 256 = i := by omega
    have hmem := outer_mem_tables (show 262 ≤ 262 + 256 * i + j by omega)
    rw [hdiv] at hmem
    -- the passes over one level-1 block, and then the next
    have hinner : ∀ {u : WriteVars g} {indirect2 : Block} {outer : UInt32}, Ready inum u →
        Buffered inum .indir2 indirect2 u.fs → u.fs.pointer inum (.outer i) = outer → outer ≠ 0 →
        (∀ f, Writes (fun _ _ => True) inum stop (262 + 256 * i + j) u f → f.Ended) →
        Returns (do
          let indirect1 ← u.fs.readBlock outer.toNat
          writeInner inum outer (256 - j) j indirect1 u >>=
            Flow.andThen (writeOuter inum n (i + 1) 0 indirect2)) := by
      intro u indirect2 outer hu hbuf ho hne hCu
      have htable : Buffered inum (.outer i) (u.fs.disk outer.toNat) u.fs := by
        rw [← ho]
        exact buffered_disk trivial (ho.symm ▸ hne)
      rw [readBlock, if_pos (ho ▸ hu.lt_nblks hg htable.ne_zero), ok_bind]
      refine writeInner_returns hg (by omega) hu ho htable hCu fun w hw hτ hCw => ?_
      have hbuf' : Buffered inum .indir2 indirect2 w.fs := by
        refine ⟨trivial, hτ .indir2 trivial ▸ hbuf.ne_zero, fun m => ?_⟩
        rw [hbuf.word]
        exact (hτ (.outer m) trivial).symm
      exact ih (i := i + 1) (j := 0) (by omega) (by omega) hw hbuf' (by rwa [Nat.add_zero])
    rw [writeOuter, outerBlock]
    split
    · next h0 =>
      obtain ⟨o, ho⟩ := newBlock_returns hg v.fs
      rw [ho]
      rcases newBlock_ok ho with ⟨rfl, -⟩ | ⟨b, hb, rfl⟩
      · exact returns_ok _
      · have h2 : v.inode.indir2.toNat < g.nblks := by
          rw [show v.inode.indir2 = v.fs.pointer inum .indir2 from hv.pointer .indir2]
          exact hv.lt_nblks hg htab.ne_zero
        by_cases hclean : v.fs.disk b = Block.zero
        · have ht := hv.tabled_outer hi htab h0 hb hclean
          have htoNat := toNat_ofNat_of_lt hv.blocks.numBlocks_lt hb.free.2.1
          rw [ok_bind]
          dsimp only
          rw [writeBlock_returns h2, ok_bind]
          exact hinner ht.ready (htab.setWord hi ht.stored) ht.stored.pointer_self ht.stored.ne_zero
            fun f hf => hC f (.table hmem ht (fun _ => htoNat.symm ▸ hclean) hf)
        · refine absurd (hC (.next v) (.dirty (by omega) (by omega) htab.ne_zero ?_ hb hclean trivial))
            (Flow.not_ended_next v)
          rw [hdiv, ← h0]
          exact (htab.word i).symm
    · next h0 => exact hinner hv htab (htab.word i).symm h0 hC

/-! ## The entries -/

/-- The block of pointers in `indir_1` or `indir_2` is there, or it is taken, or there is no
block for it. -/
theorem Ready.enter_returns (hg : g.Sized) (hv : Ready inum v) (hσ : σ = .indir1 ∨ σ = .indir2)
    (hmem : σ ∈ tables x) (start : WriteVars g → Except Fault (Flow g))
    (hC : ∀ f, Writes (fun _ _ => True) inum stop x v f → C f)
    (hstart : ∀ w : WriteVars g, Ready inum w → w.fs.pointer inum σ ≠ 0 →
      (∀ f, Writes (fun _ _ => True) inum stop x w f → C f) → Returns (start w)) :
    Returns (if v.fs.pointer inum σ = 0 then do
        match ← v.fs.newBlock with
        | none => .ok (.cleanup (-ENOSPC) v.fs)
        | some (ret, s) => do
          let inode := v.inode.setPointer ret σ
          let s := (s.setInode inum inode).writeAllInodes
          let s ← s.writeBlock ret.toNat Block.zero
          start { v with fs := s, inode := inode }
      else start v) := by
  split
  · next h0 =>
    refine (newBlock_returns hg _).bind fun o ho => ?_
    rcases newBlock_ok ho with ⟨rfl, -⟩ | ⟨b, hb, rfl⟩
    · exact returns_ok _
    · have hlt' : (UInt32.ofNat b).toNat < g.nblks := by
        rw [toNat_ofNat_of_lt hv.blocks.numBlocks_lt hb.free.2.1]
        exact hb.free.2.1.trans_le hg.le_nblks
      dsimp only
      rw [writeBlock_returns hlt', ok_bind]
      have ht := hv.tabled_inode hσ h0 hb (writeBlock_returns hlt' _)
      exact hstart _ ht.ready ht.stored.self_ne_zero fun f hf => hC f (.table hmem ht (not_isOuter hσ) hf)
  · next h0 => exact hstart v hv h0 hC

theorem Ready.fromLevel2_returns (hg : g.Sized) (hv : Ready inum v) (hx : 262 ≤ x) (hlt : x < 65798)
    (hC : ∀ f, Writes (fun _ _ => True) inum stop x v f → f.Ended) : Returns (fromLevel2 inum x v) := by
  rw [fromLevel2, show v.inode.indir2 = v.fs.pointer inum .indir2 from hv.pointer .indir2]
  refine hv.enter_returns hg (Or.inr rfl) (indir2_mem_tables hx) (fun w => do
    let indirect2 ← w.fs.readBlock w.inode.indir2.toNat
    writeOuter inum (256 - (x - 262) / 256) ((x - 262) / 256) ((x - 262) % 256) indirect2 w) hC
    fun w hw h2 hCw => ?_
  rw [show w.inode.indir2 = w.fs.pointer inum .indir2 from hw.pointer .indir2, readBlock,
    if_pos (hw.lt_nblks hg h2), ok_bind]
  have hsplit : 262 + 256 * ((x - 262) / 256) + (x - 262) % 256 = x := by omega
  exact writeOuter_returns (i := (x - 262) / 256) (j := (x - 262) % 256) hg (by omega) (by omega) hw
    (buffered_disk trivial h2) (by rwa [hsplit])

theorem Ready.fromLevel1_returns (hg : g.Sized) (hv : Ready inum v) (hx : 6 ≤ x) (hlt : x < 262)
    (hC : ∀ f, Writes (fun _ _ => True) inum stop x v f → f.Ended) : Returns (fromLevel1 inum x v) := by
  rw [fromLevel1, show v.inode.indir1 = v.fs.pointer inum .indir1 from hv.pointer .indir1]
  refine hv.enter_returns hg (Or.inl rfl) (indir1_mem_tables hx hlt) (fun w => do
    let indirect1 ← w.fs.readBlock w.inode.indir1.toNat
    match ← writeLevel1 inum (256 - (x - 6)) (x - 6) indirect1 w with
    | .cleanup total s => .ok (.cleanup total s)
    | .next u => fromLevel2 inum 262 u) hC fun w hw h1 hCw => ?_
  rw [show w.inode.indir1 = w.fs.pointer inum .indir1 from hw.pointer .indir1, readBlock,
    if_pos (hw.lt_nblks hg h1), ok_bind]
  rw [← Nat.sub_add_cancel hx] at hCw
  refine writeLevel1_returns hg (by omega) hw (buffered_disk trivial h1)
    (by rwa [if_neg (show ¬ 256 - (x - 6) = 0 by omega)]) ?_
  exact fun u hu hCu => hu.fromLevel2_returns hg le_rfl (by omega) hCu

/-- **The loops of a write return** if they end the write. -/
theorem Ready.writeBlocks_returns (hg : g.Sized) (hv : Ready inum v) (hlt : x < 65798)
    (hC : ∀ f, Writes (fun _ _ => True) inum 65798 x v f → f.Ended) : Returns (writeBlocks inum x v) := by
  rw [writeBlocks]
  by_cases h6 : x < 6
  · rw [if_pos h6]
    change Returns (writeDirect inum (6 - x) x v >>= Flow.andThen (fromLevel1 inum 6))
    refine writeDirect_returns hg (by omega) hv (by rwa [if_neg (show ¬ 6 - x = 0 by omega)]) ?_
    exact fun w hw hCw => hw.fromLevel1_returns hg le_rfl (by omega) hCw
  · rw [if_neg h6]
    by_cases h262 : x < 262
    · rw [if_pos h262]
      exact hv.fromLevel1_returns hg (by omega) h262 hC
    · rw [if_neg h262, if_pos hlt]
      exact hv.fromLevel2_returns hg (by omega) hlt hC

/-- **A write returns** if its loops do and leave a well-formed state. -/
theorem WellFormed.fsWrite_returns (h : WellFormed s) {c : Context} {path : Path} (hp : path.Proper)
    {buf : ℕ → UInt8} {len offset : ℕ}
    (hloops : ∀ i, s.resolve 1 path.tokens = .inr i → s.isDir i = false →
      ∃ f, writeBlocks i (offset / 1024) ⟨s, s.inodes i, buf, len, offset, 0⟩ = .ok f ∧ Wf f.state) :
    Returns (s.fsWrite c path buf len offset) := by
  rw [fsWrite]
  refine (h.indexed.fsGetattr_returns hp.2.1).bind fun o ho => ?_
  rcases fsGetattr_ok ho with ⟨e, -, rfl⟩ | ⟨i, hr, rfl⟩
  · exact returns_ok _
  dsimp only [fsSetSuperbockAttrs]
  rw [h.indexed.inode_returns (h.alloc_of_resolve hr), ok_bind]
  split
  · exact returns_ok _
  next hd =>
  split
  · exact returns_ok _
  obtain ⟨f, hf, hwf⟩ := hloops i hr (Bool.of_not_eq_true hd)
  rw [hf, ok_bind]
  have hcleanup : Returns (f.state.writeCleanup c path f.total) := by
    rw [writeCleanup]
    have hwf' : WellFormed f.state := ⟨hwf, h.inodes_ge⟩
    exact (hwf'.indexed.fsUtime_returns hp.2.1 c.now).bind fun _ _ => returns_ok _
  cases f <;> exact hcleanup

end FS

end Fsx600
