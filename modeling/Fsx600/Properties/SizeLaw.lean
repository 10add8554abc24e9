import Fsx600.Spec.Counting
import Fsx600.Spec.DiskFull
import Fsx600.Properties.Allocation

/-!
# The size of a file

`fs_write` adds what it copies to the size, also where it copies over bytes that are there
already.  So the size after a write is where the data ends if the write is at the end of the
file, or writes nothing, and only then.

* `size_law`: for one write, when the size is right; and for any sequence of writes for which
  it is, that it stays so, that the blocks of the file are mapped and that the size fits;
* `not_size_law`: writing the one byte of a file again makes it a file of two.
-/

namespace Fsx600

open Function GuardedRun Mkfs

/-- A call of `fs_write`. -/
structure WriteCall where
  context : Context
  path : Path
  buf : ℕ → UInt8
  len : ℕ
  offset : ℕ

namespace FS

variable {g : Layout} {s t : FS g} {c : Context} {path : Path} {buf : ℕ → UInt8}
  {inum stop i x y n e m len offset : ℕ} {v w : WriteVars g} {f : Flow g} {L : Block → ℕ → Prop}

/-- The blocks below the size of the file are mapped. -/
def FullyMapped (s : FS g) (i : ℕ) : Prop :=
  ∀ y : ℕ, (1024 * y : ℕ) < (s.inodes i).size.toInt → s.pointer i (dataSlot y) ≠ 0

/-- A call writes all it was given to the file `i`; next to the state stands the place where
the last byte written so far ends. -/
def WriteStep (i : ℕ) (a : FS g × ℕ) (w : WriteCall) (b : FS g × ℕ) : Prop :=
  a.1.resolve 1 w.path.tokens = .inr i ∧
    a.1.fsWrite w.context w.path w.buf w.len w.offset = .ok ((w.len : ℤ), b.1) ∧
    b.2 = max a.2 (w.offset + w.len)

/-- The write is at the end of the file, or writes nothing; it ends within what a file can have
and takes no level-1 block with leftovers in it. -/
def SizeGuard (i : ℕ) (a : FS g × ℕ) (w : WriteCall) : Prop :=
  ((w.offset : ℤ) = (a.1.inodes i).size.toInt ∨ w.len = 0) ∧ w.offset + w.len ≤ 65798 * 1024 ∧
    a.1.TableSafe i w.offset w.len

/-- The size of the file `i` is `m`. -/
structure Measured (i : ℕ) (a : FS g × ℕ) : Prop where
  blocks : a.1.SoundBlocks
  alloc : a.1.inodeMap i = true
  file : a.1.isDir i = false
  mapped : a.1.FullyMapped i
  size : (a.1.inodes i).size.toInt = a.2
  fits : a.2 ≤ 65798 * 1024

/-! ## One write -/

/-- The size, as an `int32_t`, grows as a number if it stays small enough. -/
theorem toInt_add_ofNat {a : Int32} {k : ℕ} (h0 : 0 ≤ a.toInt) (h : a.toInt + k < 2 ^ 31) :
    (a + Int32.ofNat k).toInt = a.toInt + k := by
  have ha : a = Int32.ofNat a.toInt.toNat := by
    refine Int32.toInt_inj.1 ?_
    rw [Int32.toInt_ofNat_of_lt (by omega)]
    omega
  rw [ha, ← Int32.ofNat_add, Int32.toInt_ofNat_of_lt (by omega), Int32.toInt_ofNat_of_lt (by omega)]
  omega

/-- A file cannot be larger than its slots. -/
theorem FullyMapped.size_le (h : s.FullyMapped i) : (s.inodes i).size.toInt ≤ 65798 * 1024 := by
  by_contra hlt
  exact absurd (lt_of_pointer_dataSlot (h 65798 (by omega))) (lt_irrefl _)

section Write

variable (hs : s.SoundBlocks) (hi : s.inodeMap i = true) (hr : s.resolve 1 path.tokens = .inr i)
  (hf : s.isDir i = false) (hw : s.fsWrite c path buf len offset = .ok ((len : ℤ), t))
include hs hi hr hf hw

/-- **The size after a write** that returns `len`. -/
theorem size_of_fsWrite (hmap : s.FullyMapped i) :
    (t.inodes i).size.toInt = (s.inodes i).size.toInt + len := by
  obtain ⟨ho, f, e, htotal, hloops, -, ht⟩ := loops_of_fsWrite hs hi hr hf hw
  have hsame : (t.inodes i).size = (f.state.inodes i).size := by
    cases ht with
    | badPath => rfl
    | touched => exact field_update Inode.size (by rfl) i
  obtain ⟨hsize, hbound⟩ : (f.state.inodes i).size = (s.inodes i).size + Int32.ofNat f.total.toNat ∧
      f.total ≤ 65798 * 1024 := size_of_writeBlocks rfl rfl hloops (by omega)
  have hle := hmap.size_le
  rw [htotal] at hsize hbound
  rw [Int.toNat_natCast] at hsize
  rw [hsame, hsize]
  exact toInt_add_ofNat (by omega) (by omega)

end Write

/-! ## The blocks of the file -/

/-- **The blocks that a write leaves mapped**, if those below data slot `x` are: all up to the
end `e` of the bytes that it writes. -/
theorem Writes.mapped (h : Writes NoLeftovers inum stop x v f) (hstop : 65798 ≤ stop) (he : e ≤ 65798 * 1024)
    (hmap : ∀ y < x, v.fs.pointer inum (dataSlot y) ≠ 0)
    (hend : e ≤ 1024 * x + (if v.fs.pointer inum (dataSlot x) = 0 then 0 else v.offset % 1024) + v.len)
    (htotal : 0 ≤ f.total) (hy : 1024 * y < e) : f.state.pointer inum (dataSlot y) ≠ 0 := by
  have hkeep : ∀ {u w : WriteVars g} {x : ℕ} {p : UInt32} {base : Block} {start : ℕ},
      Pass inum x p base start u w → (∀ y < x, u.fs.pointer inum (dataSlot y) ≠ 0) →
        ∀ y < x + 1, w.fs.pointer inum (dataSlot y) ≠ 0 := by
    intro u w x p base start hp hmap y hy
    rcases eq_or_ne y x with rfl | hyx
    · exact hp.stored.self_ne_zero
    · exact hp.stored.pointer_ne_zero (hmap y (by omega))
  induction h with
  | @table x σ p v w f hσ ht _ _ ih =>
    have hsame := ht.pointer_dataSlot hσ
    refine ih (fun y hy => by rw [hsame]; exact hmap y hy) ?_ htotal
    rwa [hsame, ht.offset, ht.len]
  | full =>
    change (0 : ℤ) ≤ -ENOSPC at htotal
    exact absurd htotal (by decide)
  | dirty _ _ _ _ _ _ hL => exact hL.elim
  | @last x p base start v w hp hlen =>
    have hroom := (hp.fill_last hlen).2
    have hlt := hp.start_lt
    rw [hp.start_eq_ite] at hend
    exact hkeep hp hmap y (by omega)
  | @pass x p base start v w f hp hlen _ ih =>
    obtain ⟨hall, hroom⟩ := hp.fill_pass hlen
    have hlenw := hp.len
    have hlt := hp.start_lt
    rw [hall] at hlenw
    rw [hp.start_eq_ite] at hend
    refine ih ?_ ?_ htotal
    · rw [resume_fs]
      exact hkeep hp hmap
    · rw [resume_fs, resume_len]
      omega
  | done => exact hmap y (by omega)

/-- A new time keeps the blocks of a file. -/
theorem TouchResult.keeps {now : UInt32} {r : ℤ}
    (h : TouchResult (fun ino => { ino with mtime := now }) s path r t) (hs : s.SoundBlocks)
    (hi : s.inodeMap i = true) (hf : s.isDir i = false) :
    t.SoundBlocks ∧ t.inodeMap i = true ∧ t.isDir i = false ∧ t.pointer i = s.pointer i := by
  cases h with
  | badPath => exact ⟨hs, hi, hf, rfl⟩
  | touched =>
    exact ⟨hs.touch rfl rfl rfl rfl, hi, (isDir_touch (by rfl) i).trans hf, pointer_touch hs hi hf _ _⟩

/-- **The blocks after a write** at the end of the file, or of nothing. -/
theorem mapped_of_fsWrite (hs : s.SoundBlocks) (hi : s.inodeMap i = true)
    (hr : s.resolve 1 path.tokens = .inr i) (hf : s.isDir i = false)
    (hw : s.fsWrite c path buf len offset = .ok ((len : ℤ), t)) (hmap : s.FullyMapped i)
    (hwhere : (offset : ℤ) = (s.inodes i).size.toInt ∨ len = 0) (hle : offset + len ≤ 65798 * 1024)
    (hsafe : s.TableSafe i offset len) :
    t.SoundBlocks ∧ t.inodeMap i = true ∧ t.isDir i = false ∧ t.FullyMapped i := by
  have hgrown := size_of_fsWrite hs hi hr hf hw hmap
  have hsizes := hmap.size_le
  obtain ⟨ho, f, e, htotal, -, hwrites, ht⟩ := loops_of_fsWrite hs hi hr hf hw
  have hv := hs.ready_writeVars hi hf buf len offset
  have hclean := hwrites.clean hv (Nat.sub_add_cancel (firstSlot_lt offset).le) hsafe
  obtain ⟨hs', hi', hf'⟩ := hclean.keeps_file hv
  obtain ⟨hs'', hi'', hf'', hpointer⟩ := ht.keeps hs' hi' hf'
  refine ⟨hs'', hi'', hf'', fun y hy => ?_⟩
  rw [hpointer]
  by_cases hold : (1024 * y : ℕ) < (s.inodes i).size.toInt
  · exact hclean.pointer_ne_zero hv (hmap y hold)
  · -- the write is at the end of the file
    have hlt : offset / 1024 < 65798 := by omega
    have hoffset : (s.writeVars i buf len offset).offset = offset := if_pos hlt
    rw [if_pos hlt] at hclean
    refine hclean.mapped (e := offset + len) le_rfl hle (fun z hz => hmap z (by omega)) ?_ (by omega)
      (by omega)
    rw [hoffset]
    show offset + len ≤ 1024 * (offset / 1024) +
      (if s.pointer i (dataSlot (offset / 1024)) = 0 then 0 else offset % 1024) + len
    split
    · next h0 =>
      have hfull := mt (hmap (offset / 1024)) (not_not.2 h0)
      omega
    · omega

/-! ## Runs -/

theorem Measured.write {a b : FS g × ℕ} {d : WriteCall} (h : Measured i a) (hg : SizeGuard i a d)
    (hstep : WriteStep i a d b) : Measured i b := by
  obtain ⟨hwhere, hle, hsafe⟩ := hg
  obtain ⟨hr, hw, hm⟩ := hstep
  have hgrown := size_of_fsWrite h.blocks h.alloc hr h.file hw h.mapped
  obtain ⟨hs, hi, hf, hmap⟩ := mapped_of_fsWrite h.blocks h.alloc hr h.file hw h.mapped hwhere hle hsafe
  have ho := (loops_of_fsWrite h.blocks h.alloc hr h.file hw).1
  have hsize := h.size
  have hfits := h.fits
  refine ⟨hs, hi, hf, hmap, ?_, ?_⟩
  · rw [hgrown]
    omega
  · omega

/-- **The size of a file** after a write is where its data ends if and only if the write was at
the end or wrote nothing; and so it is, over any sequence of such writes. -/
theorem size_law (hs : s.SoundBlocks) (hi : s.inodeMap i = true) (hf : s.isDir i = false)
    (hmap : s.FullyMapped i) :
    (∀ (c : Context) (path : Path) (buf : ℕ → UInt8) (len offset : ℕ) (t : FS g),
      s.resolve 1 path.tokens = .inr i → s.fsWrite c path buf len offset = .ok ((len : ℤ), t) →
        ((t.inodes i).size.toInt = max (s.inodes i).size.toInt (offset + len) ↔
          (offset : ℤ) = (s.inodes i).size.toInt ∨ len = 0)) ∧
      ∀ (m : ℕ) (b : FS g × ℕ), (s.inodes i).size.toInt = m →
        Run (WriteStep i) (SizeGuard i) (s, m) b →
          (b.1.inodes i).size.toInt = b.2 ∧ b.1.FullyMapped i ∧ b.2 ≤ 65798 * 1024 := by
  refine ⟨fun c path buf len offset t hr hw => ?_, fun m b hm hrun => ?_⟩
  · have hgrown := size_of_fsWrite hs hi hr hf hw hmap
    have ho := (loops_of_fsWrite hs hi hr hf hw).1
    omega
  · have hfits := hmap.size_le
    have hmeasured := hrun.invariant (P := Measured i) ⟨hs, hi, hf, hmap, hm, by omega⟩
      fun _ _ _ h hg hstep => h.write hg hstep
    exact ⟨hmeasured.size, hmeasured.mapped, hmeasured.fits⟩

/-- 1500 bytes written to a new file. -/
theorem size_law_1500 : ∃ s t, (fresh formattable_256 0).guardedAll ⟨1000, 1000, 0⟩ FilesGuard
    [.mknod ⟨[47, 97], by decide⟩ 0x81A4] = some s ∧
      Run (WriteStep 2) (SizeGuard 2) (s, 0) (t, 1500) ∧ (t.inodes 2).size.toInt = 1500 := by
  have hend : ((fresh formattable_256 0).guardedAll ⟨1000, 1000, 0⟩ FilesGuard
      [.mknod ⟨[47, 97], by decide⟩ 0x81A4]).any (fun s => s.inodeMap 2 && !s.isDir 2 &&
        (s.inodes 2).size == 0 && decide (s.resolve 1 (Path.tokens ⟨[47, 97], by decide⟩) = .inr 2) &&
          decide (s.TableSafe 2 0 1500) &&
            returned (s.fsWrite ⟨1000, 1000, 0⟩ ⟨[47, 97], by decide⟩ UInt8.ofNat 1500 0) ==
              some 1500) = true := by
    decide +kernel
  obtain ⟨s, hs, htest⟩ := (Option.any_eq_true _ _).mp hend
  simp only [Bool.and_eq_true, Bool.not_eq_true', beq_iff_eq, decide_eq_true_eq] at htest
  obtain ⟨⟨⟨⟨⟨hi, hf⟩, hsize⟩, hr⟩, hsafe⟩, hret⟩ := htest
  have hwf : Wf s := wf_of_run (run_of_guardedAll hs)
  obtain ⟨t, ht⟩ := exists_of_returned hret
  have hint : (s.inodes 2).size.toInt = 0 := by
    rw [hsize]
    rfl
  have hmap : s.FullyMapped 2 := fun y hy => by omega
  have hrun : Run (WriteStep 2) (SizeGuard 2) (s, 0) (t, 1500) :=
    .tail (a := ⟨⟨1000, 1000, 0⟩, ⟨[47, 97], by decide⟩, UInt8.ofNat, 1500, 0⟩) .refl
      ⟨Or.inl hint.symm, show 0 + 1500 ≤ 65798 * 1024 by decide, hsafe⟩ ⟨hr, ht, rfl⟩
  exact ⟨s, t, hs, hrun, ((size_law hwf.blocks hi hf hmap).2 0 (t, 1500) hint hrun).1⟩

/-- The one byte of a file is written again, and the file has two. -/
theorem not_size_law : ¬ ∀ (g : Layout) (s t : FS g) (c : Context) (path : Path) (i : ℕ)
    (buf : ℕ → UInt8) (len offset : ℕ), s.SoundBlocks → s.inodeMap i = true →
      sIsReg (s.inodes i).mode = true → s.FullyMapped i →
      (∀ y : ℕ, (s.inodes i).size.toInt ≤ (1024 * y : ℕ) → s.pointer i (dataSlot y) = 0) →
      s.resolve 1 path.tokens = .inr i → (offset : ℤ) ≤ (s.inodes i).size.toInt →
      s.fsWrite c path buf len offset = .ok ((len : ℤ), t) →
        (t.inodes i).size.toInt = max (s.inodes i).size.toInt (offset + len) := by
  intro hall
  have hend : ((fresh formattable_256 0).guardedAll ⟨1000, 1000, 0⟩ FilesGuard
      [.mknod ⟨[47, 97], by decide⟩ 0x81A4,
        .write ⟨[47, 97], by decide⟩ (fun _ => 1) 1 0]).any (fun s => s.inodeMap 2 &&
          sIsReg (s.inodes 2).mode && !s.isDir 2 && (s.inodes 2).size == 1 &&
          (s.inodes 2).directAt 0 != 0 && ((s.inodes 2).setDirect 0 0).Empty &&
          decide (s.resolve 1 (Path.tokens ⟨[47, 97], by decide⟩) = .inr 2) &&
          returned (s.fsWrite ⟨1000, 1000, 0⟩ ⟨[47, 97], by decide⟩ (fun _ => 2) 1 0) ==
            some 1) = true := by
    decide +kernel
  obtain ⟨s, hs, htest⟩ := (Option.any_eq_true _ _).mp hend
  simp only [Bool.and_eq_true, Bool.not_eq_true', beq_iff_eq, bne_iff_ne, decide_eq_true_eq] at htest
  obtain ⟨⟨⟨⟨⟨⟨⟨hi, hreg⟩, hf⟩, hsize⟩, h0⟩, he⟩, hr⟩, hret⟩ := htest
  have hwf : Wf s := wf_of_run (run_of_guardedAll hs)
  obtain ⟨t, ht⟩ := exists_of_returned hret
  have hint : (s.inodes 2).size.toInt = 1 := by
    rw [hsize]
    rfl
  have hmap : s.FullyMapped 2 := by
    intro y hy
    obtain rfl : y = 0 := by omega
    exact h0
  -- the one pointer is the first
  have hzero : ∀ y : ℕ, (s.inodes 2).size.toInt ≤ (1024 * y : ℕ) → s.pointer 2 (dataSlot y) = 0 := by
    intro y hy
    have hempty := he.pointer s.disk (dataSlot y)
    unfold dataSlot at hempty ⊢
    split_ifs at hempty ⊢
    · rwa [Inode.pointer, Inode.directAt_setDirect _ _ _ (by decide), if_neg (by omega)] at hempty
    · exact hempty
    · exact hempty
  have hlaw := hall _ s t _ _ 2 _ 1 0 hwf.blocks hi hreg hmap hzero hr (by omega) ht
  rw [size_of_fsWrite hwf.blocks hi hr hf ht hmap, hint] at hlaw
  exact absurd hlaw (by decide)

end FS

end Fsx600
