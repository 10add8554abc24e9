import Fsx600.Spec.Reading
import Fsx600.Properties.Flushing
import Fsx600.Properties.Allocation

/-!
# Reading at the end of a file and past it

`fs_read` reads the block of the next byte before it looks whether there is a next byte.
Where that byte is past the end of the file the block may be missing, and so may the blocks
of pointers on the way to it.  A missing block of pointers is block 0 to `fs_read`, which
takes the words of the superblock for block numbers: all of them are, except the magic number
and the number of blocks.

* `fsRead_iff_of_run`: which reads of a file that was written by appending return what they
  should;
* `not_fsRead_of_run`: a read at byte 6144 of an empty file does not.
-/

namespace Fsx600

open Checked Function GuardedRun Mkfs

namespace FS

variable {g : Layout} {s s' : FS g} {a : Call} {path : Path} {i j k x len offset : ℕ}

/-! ## Files that are only appended to -/

/-- Files are created, and written at their ends. -/
def AppendGuard (s : FS g) : Call → Prop
  | .mknod _ mode => sIsReg mode = true
  | .write path _ _ offset => s.OfFile path fun i => (offset : ℤ) = (s.inodes i).size.toInt
  | .mkdir _ _ | .unlink _ | .rmdir _ | .rename _ _ | .chmod _ _ | .utime _ _ | .truncate _ _ => False

instance (s : FS g) : (a : Call) → Decidable (s.AppendGuard a)
  | .mknod _ mode => inferInstanceAs (Decidable (sIsReg mode = true))
  | .write path _ _ offset =>
    inferInstanceAs (Decidable (s.OfFile path fun i => (offset : ℤ) = (s.inodes i).size.toInt))
  | .mkdir _ _ | .unlink _ | .rmdir _ | .rename _ _ | .chmod _ _ | .utime _ _ | .truncate _ _ =>
    inferInstanceAs (Decidable False)

/-- A block is stored in the data region, and so is the block of pointers it stands in. -/
theorem Stored.clean (hs : s.SoundBlocks) {σ : Slot} {p : UInt32} {b : Block} {n : ℕ}
    (h : Stored i σ p b n s s') : Clean s s' := by
  obtain ⟨w, hw, hwritten⟩ := h.trace
  refine ⟨w, hw, fun x hx => ?_⟩
  obtain rfl | ⟨τ, k, hτ, rfl⟩ := hwritten x hx
  · exact ((h.inUse_iff hs _).2 (Or.inr rfl)).1
  · exact (hs.sound.used (owner_of_pointer h.alloc h.file (h.place_ne_zero hτ))).1

/-- The free blocks hold zeros. -/
def FreeZero (s : FS g) : Prop := ∀ b, s.Free b → s.disk b = Block.zero

theorem FreeZero.zeroTables (h : FreeZero s) (slots : List Slot) : s.ZeroTables slots :=
  fun _ hy _ => h _ (mem_freeBlocks.1 (List.of_mem_zip hy).2)

theorem FreeZero.stored (h : FreeZero s) (hs : s.SoundBlocks) {σ : Slot} {p : UInt32} {b : Block}
    {n : ℕ} (hstored : Stored i σ p b n s s') : FreeZero s' := by
  intro y hy
  rw [hstored.disk_of_free hs hy]
  refine h y ⟨hy.1, hy.2.1, ?_⟩
  by_contra hused
  have huse := (hstored.inUse_iff hs y).2 (Or.inl ⟨hy.1, hy.2.1, by simpa using hused⟩)
  exact hy.not_inUse huse

/-- What holds as long as files are only created and appended to. -/
structure Appended {n : ℕ} (h : Formattable n) (s : FS (layout h)) : Prop where
  wf : Wf s
  synced : s.Synced
  superblock : s.disk 0 = (super n).block
  freeZero : s.FreeZero

theorem appended_fresh {n : ℕ} (h : Formattable n) (t : UInt32) : Appended h (fresh h t) where
  wf := wf_fresh h t
  synced := synced_fresh h t
  superblock := rfl
  freeZero := fun b hb => block_data (by rw [rootdirBase_eq]; exact hb.1)

theorem FreeZero.writeInodeMap (h : FreeZero s) : s.writeInodeMap.FreeZero :=
  fun b hb => (disk_writeInodeMap s hb.1).trans (h b hb)

theorem FreeZero.created {c : Context} {mode : UInt32} {p n : ℕ} {name : Name} {fresh : Option ℕ}
    (hwf : Wf s) (hz : FreeZero s) (h : Created c mode p j n name fresh s s') : FreeZero s' := by
  intro b hb
  have hmap := h.blockMap b
  rw [hb.2.2, eq_comm, Bool.or_eq_false_iff, beq_eq_false_iff_ne] at hmap
  have hfree : s.Free b := ⟨hb.1, hb.2.1, hmap.1⟩
  have hne : b ≠ ((s.inodes p).directAt 0).toNat := by
    rintro rfl
    exact hfree.not_inUse (hwf.dirBlock_inUse h.parent)
  rw [h.disk b hb.1, if_neg hne, if_neg hmap.2]
  exact hz b hfree

theorem AppendGuard.cleanStep (hwf : Wf s) (hz : s.FreeZero) (hg : s.AppendGuard a) (h : s.Step a s') :
    CleanStep s a s' ∧ Wf s' ∧ s'.FreeZero := by
  have hstep := h
  obtain ⟨c, r, h⟩ := h
  cases a with
  | mknod path mode =>
    have hres := fsMknod_ok hwf h
    have hwf' := hres.wf hwf
    cases hres with
    | badPath => exact ⟨(Clean.refl s).cleanStep hstep, hwf', hz⟩
    | «exists» => exact ⟨(Clean.refl s).cleanStep hstep, hwf', hz⟩
    | noInode => exact ⟨(Clean.refl s).cleanStep hstep, hwf', hz⟩
    | noSlot => exact ⟨(Clean.writeInodeMap s).cleanStep hstep, hwf', hz.writeInodeMap⟩
    | noBlock => exact ⟨(Clean.writeInodeMap s).cleanStep hstep, hwf', hz.writeInodeMap⟩
    | created _ hc => exact ⟨(hc.clean hwf).cleanStep hstep, hwf', hz.created hwf hc⟩
  | write path buf len offset =>
    have hinv := (hwf.fsWrite_ok h).invariant (P := fun t => Clean s t ∧ t.FreeZero) hwf ?_ ⟨.refl s, hz⟩
      (fun _ _ _ _ _ _ _ _ _ hwf' hP hstored => ?_) fun i hwf' hP => ?_
    · exact ⟨hinv.2.1.cleanStep hstep, hinv.1, hinv.2.2⟩
    · exact fun _ _ _ _ => hz.zeroTables _
    · exact ⟨hP.1.trans (hstored.clean hwf'.blocks), hP.2.stored hwf'.blocks hstored⟩
    · refine ⟨hP.1, fun b hb => ?_⟩
      exact (disk_writeAllInodes _ hb.1).trans (hP.2 b hb)
  | mkdir | unlink | rmdir | rename | chmod | utime | truncate => exact absurd hg id

theorem appended_of_run {n : ℕ} (h : Formattable n) (t : UInt32) {s : FS (layout h)}
    (hrun : Run Step AppendGuard (fresh h t) s) : Appended h s :=
  hrun.invariant (appended_fresh h t) fun _ _ _ hs hg hstep => by
    obtain ⟨hclean, hwf, hz⟩ := hg.cleanStep hs.wf hs.freeZero hstep
    obtain ⟨hsynced, h0⟩ := hs.synced.cleanStep hclean
    exact ⟨hwf, hsynced, h0.trans hs.superblock, hz⟩

/-! ## Superblock words as block numbers -/

/-- The words of the superblock are block numbers, but for the first and the fifth. -/
theorem super_word_lt_iff {n : ℕ} (h : Formattable n) (hk : k < 256) :
    ((super n).block.word k).toNat < n ↔ k ≠ 0 ∧ k ≠ 4 := by
  have hbytes := h.bytes_lt
  have hge := h.blocks_ge
  have hroot := rootdirBase_lt h
  have hregions := rootdirBase_eq n
  unfold Super.block
  rw [Block.word_ofWords _ hk]
  have hle : ∀ {m}, m ≤ n → (UInt32.ofNat m).toNat = m := fun hm => toNat_ofNat_of_le h hm
  rcases k with _ | _ | _ | _ | _ | _ | k
  · -- the magic number
    show (0x37363030 : UInt32).toNat < n ↔ _
    have hmagic : (0x37363030 : UInt32).toNat = 926298160 := rfl
    omega
  · show (UInt32.ofNat (nInoMapBlks n)).toNat < n ↔ _
    rw [hle (by omega)]
    omega
  · show (UInt32.ofNat (nInoBlks n)).toNat < n ↔ _
    rw [hle (by omega)]
    omega
  · show (UInt32.ofNat (nMapBlks n)).toNat < n ↔ _
    rw [hle (by omega)]
    omega
  · show (UInt32.ofNat n).toNat < n ↔ _
    rw [hle le_rfl]
    omega
  · show (1 : UInt32).toNat < n ↔ _
    have hone : (1 : UInt32).toNat = 1 := rfl
    omega
  · show (0 : UInt32).toNat < n ↔ _
    have hzero : (0 : UInt32).toNat = 0 := rfl
    omega

/-- The block number that `fs_read` takes for data slot `x`, where there is none, is not one of
the image: entry 0 or 4 of a missing block of pointers. -/
def Stray (s : FS g) (i x : ℕ) : Prop :=
  (6 ≤ x ∧ x < 262 ∧ s.pointer i .indir1 = 0 ∧ (x - 6 = 0 ∨ x - 6 = 4)) ∨
  (262 ≤ x ∧ s.pointer i .indir2 ≠ 0 ∧ s.pointer i (.outer ((x - 262) / 256)) = 0 ∧
    ((x - 262) % 256 = 0 ∨ (x - 262) % 256 = 4)) ∨
  (262 ≤ x ∧ s.pointer i .indir2 = 0 ∧ ((x - 262) / 256 = 0 ∨ (x - 262) / 256 = 4 ∨
    g.nblks ≤ ((s.disk ((s.disk 0).word ((x - 262) / 256)).toNat).word ((x - 262) % 256)).toNat))

theorem returns_readBlock_iff {p : ℕ} : Returns (s.readBlock p) ↔ p < g.nblks := by
  unfold readBlock
  split
  · next h => exact iff_of_true (returns_ok _) h
  · next h => exact iff_of_false (by rintro ⟨b, hb⟩; cases hb) h

theorem returns_readBlock_bind_iff {p : ℕ} {β : Type} {k : Block → Except Fault β} :
    Returns (s.readBlock p >>= k) ↔ p < g.nblks ∧ Returns (k (s.disk p)) := by
  unfold readBlock
  split
  · next h => exact (and_iff_right h).symm
  · next h => exact iff_of_false (by rintro ⟨b, hb⟩; cases hb) fun hp => h hp.1

section

variable {n : ℕ} {h : Formattable n} {s : FS (layout h)} (hs : Appended h s)
  (hi : s.inodeMap i = true) (hf : s.isDir i = false)
include hs hi hf

/-- A pointer of a file is zero or the number of a block. -/
theorem Appended.pointer_lt (σ : Slot) : (s.pointer i σ).toNat < n := by
  by_cases h0 : s.pointer i σ = 0
  · have hge := h.blocks_ge
    rw [h0, UInt32.toNat_zero]
    omega
  · exact (hs.wf.sound.used (owner_of_pointer hi hf h0)).2.1.trans_le hs.wf.numBlocks_le_nblks

omit hi hf in
theorem Appended.word_lt_iff (hk : k < 256) :
    ((s.disk 0).word k).toNat < (layout h).nblks ↔ ¬ (k = 0 ∨ k = 4) := by
  rw [hs.superblock, not_or]
  exact super_word_lt_iff h hk

/-- **Which data slots can be fetched**, of the slots that a file can have. -/
theorem Appended.returns_fetch_iff (hx : x < 65798) :
    Returns (s.fetch (s.inodes i) x) ↔ ¬ s.Stray i x := by
  have hlt : ∀ σ, (s.pointer i σ).toNat < (layout h).nblks := hs.pointer_lt hi hf
  have hzero : (0 : UInt32).toNat < (layout h).nblks := lt_of_lt_of_le (by decide) h.blocks_ge
  by_cases hway : ∀ σ ∈ tables x, s.pointer i σ ≠ 0
  · refine iff_of_true ⟨_, fetch_of_way hway fun σ _ => hlt σ⟩ ?_
    rintro (⟨h6, h262, h1, -⟩ | ⟨h262, -, ho, -⟩ | ⟨h262, h2, -⟩)
    · exact hway _ (indir1_mem_tables h6 h262) h1
    · exact hway _ (outer_mem_tables h262) ho
    · exact hway _ (indir2_mem_tables h262) h2
  unfold fetch
  split_ifs with h6 h262
  · exact absurd (fun σ hσ => by simp [tables, h6] at hσ) hway
  · -- `indir_1` is missing
    have h1 : (s.inodes i).indir1 = 0 := by
      by_contra h1
      refine hway fun σ hσ => ?_
      rw [tables, if_neg h6, if_pos h262, List.mem_singleton] at hσ
      exact hσ ▸ h1
    rw [returns_readBlock_bind_iff, returns_readBlock_iff, h1, and_iff_right hzero, UInt32.toNat_zero,
      hs.word_lt_iff (by omega)]
    refine not_congr ⟨fun hk => Or.inl ⟨not_lt.1 h6, h262, h1, hk⟩, ?_⟩
    rintro (⟨-, -, -, hk⟩ | ⟨h262', -⟩ | ⟨h262', -⟩)
    · exact hk
    · exact absurd h262 (not_lt.2 h262')
    · exact absurd h262 (not_lt.2 h262')
  · have hge : 262 ≤ x := not_lt.1 h262
    rw [returns_readBlock_bind_iff]
    by_cases h2 : s.pointer i .indir2 = 0
    · -- `indir_2` is missing
      have h2' : (s.inodes i).indir2 = 0 := h2
      rw [returns_readBlock_bind_iff, returns_readBlock_iff, h2', and_iff_right hzero, UInt32.toNat_zero,
        hs.word_lt_iff (by omega), ← not_le, ← not_or, or_assoc]
      refine not_congr ⟨fun hk => Or.inr (Or.inr ⟨hge, h2, hk⟩), ?_⟩
      rintro (⟨-, h262', -⟩ | ⟨-, h2', -⟩ | ⟨-, -, hk⟩)
      · exact absurd h262' h262
      · exact absurd h2 h2'
      · exact hk
    · -- the level-1 block is missing
      have houter : (s.disk (s.pointer i .indir2).toNat).word ((x - 262) / 256) =
          s.pointer i (.outer ((x - 262) / 256)) := (tableWord_of_ne_zero h2 _).symm
      have ho : s.pointer i (.outer ((x - 262) / 256)) = 0 := by
        by_contra ho
        refine hway fun σ hσ => ?_
        rw [tables, if_neg h6, if_neg h262, List.mem_pair] at hσ
        rcases hσ with rfl | rfl
        · exact h2
        · exact ho
      change (s.pointer i .indir2).toNat < _ ∧ Returns (s.readBlock
        ((s.disk (s.pointer i .indir2).toNat).word ((x - 262) / 256)).toNat >>= _) ↔ _
      rw [returns_readBlock_bind_iff, returns_readBlock_iff, houter, ho, and_iff_right hzero,
        and_iff_right (hlt _), UInt32.toNat_zero, hs.word_lt_iff (by omega)]
      refine not_congr ⟨fun hk => Or.inr (Or.inl ⟨hge, h2, ho, hk⟩), ?_⟩
      rintro (⟨-, h262', -⟩ | ⟨-, -, -, hk⟩ | ⟨-, h2', -⟩)
      · exact absurd h262' h262
      · exact hk
      · exact absurd h2' h2

end

/-! ## What a read returns -/

/-- The data slots that a read comes to. -/
def Visits (size : Int32) (len offset x : ℕ) : Prop :=
  0 ≤ readIndex offset ∧ readIndex offset ≤ x ∧ x < 65798 ∧ x * 1024 ≤ readEnd size len offset

/-- The read comes to no data slot that is a stray one, and it copies nothing from past the
last data slot. -/
def ReadSafe (s : FS g) (i len offset : ℕ) : Prop :=
  (∀ x, Visits (s.inodes i).size len offset x → ¬ s.Stray i x) ∧
    (readEnd (s.inodes i).size len offset = offset ∨
      readEnd (s.inodes i).size len offset ≤ 65798 * 1024)

/-- What `fs_read` should return. -/
def readCount (size : Int32) (len offset : ℕ) : ℕ :=
  if size.toInt ≤ offset then 0 else min len (size.toInt.toNat - offset)

theorem readCount_eq (size : Int32) (len offset : ℕ) :
    readCount size len offset = readEnd size len offset - offset := by
  unfold readCount readEnd
  split <;> omega

theorem Appended.fsRead_iff {n : ℕ} {h : Formattable n} {s : FS (layout h)} (hs : Appended h s)
    (hfinds : s.Finds path i) (hf : s.isDir i = false) (buf : ℕ → UInt8) (len offset : ℕ) :
    (∃ buf', s.fsRead path buf len offset = .ok (readCount (s.inodes i).size len offset, buf')) ↔
      s.ReadSafe i len offset := by
  have hi : s.inodeMap i = true := by
    rcases fsGetattr_ok hfinds with ⟨e, -, he⟩ | ⟨j, hj, he⟩
    · simp at he
    · have hji : i = j := congrArg Stat.ino (Sum.inr.inj he)
      exact hs.wf.alloc_of_resolve (hji ▸ hj)
  have hcount := readCount_eq (s.inodes i).size len offset
  have hend : offset ≤ readEnd (s.inodes i).size len offset := le_max_left ..
  by_cases hidx : readIndex offset < 0 ∨ 65798 ≤ readIndex offset
  · have hpast := le_offset_of_readIndex hidx
    rw [hfinds.fsRead_past hidx]
    constructor
    · rintro ⟨buf', hret⟩
      have hzero := congrArg Prod.fst (Except.ok.inj hret)
      dsimp only at hzero
      refine ⟨fun x hx => ?_, Or.inl (by omega)⟩
      obtain ⟨h0, hle, hlt, -⟩ := hx
      omega
    · rintro ⟨-, hsafe⟩
      rw [show readCount (s.inodes i).size len offset = 0 by omega]
      exact ⟨buf, rfl⟩
  · obtain ⟨x, hx⟩ : ∃ x : ℕ, readIndex offset = x := Int.eq_ofNat_of_zero_le (by omega)
    have hlt : x < 65798 := by omega
    have hstart : Loaded (s.fetched (s.inodes i)) buf (s.inodes i).size len offset (x * 1024)
        (ReadVars.startAt ⟨buf, len, 0, 0⟩ x) := loaded_start (le_of_readIndex hx)
    have hvisits : ∀ y, Visits (s.inodes i).size len offset y ↔
        x ≤ y ∧ y < x + (65798 - x) ∧ y * 1024 ≤ readEnd (s.inodes i).size len offset := by
      intro y
      unfold Visits
      omega
    have hreturns : Returns (s.readSlots (s.inodes i) offset (65798 - x) x
        (ReadVars.startAt ⟨buf, len, 0, 0⟩ x)) ↔
          ∀ y, Visits (s.inodes i).size len offset y → ¬ s.Stray i y := by
      rw [readSlots_returns_iff hstart]
      refine forall_congr' fun y => ?_
      rw [hvisits, and_imp, and_imp]
      refine forall₃_congr fun _ hy _ => hs.returns_fetch_iff hi hf (by omega)
    rw [hfinds.fsRead_eq hf hx hlt]
    constructor
    · rintro ⟨buf', hret⟩
      rw [bind_eq_ok] at hret
      obtain ⟨f, hslots, hret⟩ := hret
      have hcopied := (loaded_readSlots hstart hslots).numCopied
      have hsame := congrArg Prod.fst (Except.ok.inj hret)
      dsimp only at hsame
      exact ⟨hreturns.1 ⟨f, hslots⟩, by omega⟩
    · rintro ⟨hsafe, hle⟩
      obtain ⟨f, hslots⟩ := hreturns.2 hsafe
      have hcopied := (loaded_readSlots hstart hslots).numCopied
      rw [hslots, ok_bind, show f.vars.numCopied = readCount (s.inodes i).size len offset by omega]
      exact ⟨_, rfl⟩

/-- **A read of a file that was written by appending** gives blocks of the image only to the
disk and returns what it should, if and only if it comes to no stray data slot. -/
theorem fsRead_iff_of_run {n : ℕ} (h : Formattable n) (t : UInt32) (s : FS (layout h))
    (hrun : Run Step AppendGuard (fresh h t) s) (path : Path) (i : ℕ) (hfinds : s.Finds path i)
    (hf : s.isDir i = false) (buf : ℕ → UInt8) (len offset : ℕ) :
    (∃ buf', s.fsRead path buf len offset = .ok (readCount (s.inodes i).size len offset, buf')) ↔
      s.ReadSafe i len offset :=
  (appended_of_run h t hrun).fsRead_iff hfinds hf buf len offset

/-- A read that asks for more than the last ten bytes of a file of 7000. -/
theorem fsRead_iff_of_tailRun : ∃ s, (fresh formattable_256 0).guardedAll ⟨1000, 1000, 0⟩ AppendGuard
    [.mknod ⟨[47, 97], by decide⟩ 0x81A4, .write ⟨[47, 97], by decide⟩ UInt8.ofNat 7000 0] = some s ∧
      ∃ buf', s.fsRead ⟨[47, 97], by decide⟩ (fun _ => 0) 4096 6990 = .ok (10, buf') := by
  have hend : ((fresh formattable_256 0).guardedAll ⟨1000, 1000, 0⟩ AppendGuard
      [.mknod ⟨[47, 97], by decide⟩ 0x81A4,
        .write ⟨[47, 97], by decide⟩ UInt8.ofNat 7000 0]).any (fun s => !s.isDir 2 &&
          (s.inodes 2).size == 7000 && s.pointer 2 .indir1 != 0 &&
          decide (s.resolve 1 (Path.tokens ⟨[47, 97], by decide⟩) = .inr 2)) = true := by
    decide +kernel
  obtain ⟨s, hs, htest⟩ := (Option.any_eq_true _ _).mp hend
  simp only [Bool.and_eq_true, Bool.not_eq_true', beq_iff_eq, bne_iff_ne, decide_eq_true_eq] at htest
  obtain ⟨⟨⟨hf, hsize⟩, h1⟩, hr⟩ := htest
  have hrun := run_of_guardedAll hs
  have hfinds : s.Finds ⟨[47, 97], by decide⟩ 2 :=
    WellFormed.finds ⟨(appended_of_run _ 0 hrun).wf, by decide⟩ (by decide +kernel) hr
  have hcount : readCount (s.inodes 2).size 4096 6990 = 10 := by
    rw [hsize]
    decide
  have hread := fsRead_iff_of_run formattable_256 0 s hrun _ 2 hfinds hf (fun _ => 0) 4096 6990
  rw [hcount] at hread
  refine ⟨s, hs, hread.2 ⟨fun x hx => ?_, Or.inr ?_⟩⟩
  · obtain ⟨-, hle, -, hx⟩ := hx
    rw [readIndex_of_lt (by decide)] at hle
    have hend7000 : readEnd (s.inodes 2).size 4096 6990 = 7000 := by
      rw [hsize]
      decide
    obtain rfl : x = 6 := by omega
    rintro (⟨-, -, h0, -⟩ | ⟨h262, -⟩ | ⟨h262, -⟩)
    · exact h1 h0
    · omega
    · omega
  · rw [hsize]
    decide

/-- A read at byte 6144 of an empty file takes the magic number for a block number. -/
theorem not_fsRead_of_run : ¬ ∀ (n : ℕ) (h : Formattable n) (t : UInt32) (s : FS (layout h)),
    Run Step AppendGuard (fresh h t) s → ∀ (path : Path) (i : ℕ), s.Finds path i → s.isDir i = false →
      ∀ (buf : ℕ → UInt8) (len offset : ℕ), ∃ buf',
        s.fsRead path buf len offset = .ok (readCount (s.inodes i).size len offset, buf') := by
  intro hall
  have hend : ((fresh formattable_256 0).guardedAll ⟨1000, 1000, 0⟩ AppendGuard
      [.mknod ⟨[47, 97], by decide⟩ 0x81A4]).any (fun s => !s.isDir 2 &&
        (s.inodes 2).size == 0 && s.pointer 2 .indir1 == 0 &&
        decide (s.resolve 1 (Path.tokens ⟨[47, 97], by decide⟩) = .inr 2)) = true := by
    decide +kernel
  obtain ⟨s, hs, htest⟩ := (Option.any_eq_true _ _).mp hend
  simp only [Bool.and_eq_true, Bool.not_eq_true', beq_iff_eq, decide_eq_true_eq] at htest
  obtain ⟨⟨⟨hf, hsize⟩, h1⟩, hr⟩ := htest
  have hrun := run_of_guardedAll hs
  have happ := appended_of_run _ 0 hrun
  have hfinds : s.Finds ⟨[47, 97], by decide⟩ 2 :=
    WellFormed.finds ⟨happ.wf, by decide⟩ (by decide +kernel) hr
  have hsafe := (happ.fsRead_iff hfinds hf (fun _ => 0) 1 6144).1
    (hall 256 _ 0 s hrun _ 2 hfinds hf _ 1 6144)
  refine hsafe.1 6 ⟨?_, ?_, by omega, ?_⟩ (Or.inl ⟨le_rfl, by omega, h1, Or.inl rfl⟩)
  · rw [readIndex_of_lt (by decide)]
    omega
  · rw [readIndex_of_lt (by decide)]
  · rw [hsize]
    decide

end FS

end Fsx600
