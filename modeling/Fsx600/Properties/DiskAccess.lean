import Fsx600.Properties.Device
import Fsx600.Spec.Primitives
import Fsx600.Spec.Fresh

/-!
# The file system on its device

In a state of the file system the image is a function from block numbers to blocks, and an access
succeeds exactly if it is in range.  On the images of a `Layout`, which have less than 2 GiB, that
is how the device of `image.c` behaves: the accesses of `main.c` on a device that holds the disk of a
state succeed on both sides, with the same blocks, or on neither.  `mkfs-x6` makes no other images.

A pointer that is out of range is refused by the assertion, with one exception: for
`p = 2^31 - 1` the sum in it is negative.  Then it is the kernel that refuses, since the product
is negative as well.
-/

namespace Fsx600

open Checked RangeArray

variable {g : Layout} {s : FS g} {im : ImageDev} {buf : ℕ → UInt8} {p : UInt32} {first len : ℕ}

/-- What is in the file is the disk of the state. -/
structure ImageDev.Holds (im : ImageDev) (s : FS g) : Prop where
  failed : im.failed = false
  nblks : im.nblks = Int32.ofNat g.nblks
  size : im.file.size / 1024 = g.nblks
  block : ∀ b < g.nblks, im.file.block b = s.disk b

/-- A pointer, passed as an `int`. -/
theorem toInt32_eq (p : UInt32) : p.toInt32 = Int32.ofNat p.toNat := by
  rw [← UInt32.toInt32_ofNat', UInt32.ofNat_toNat]

namespace ImageDev.Holds

theorem openOn (h : im.Holds s) : OpenOn im.file im := by
  refine ⟨h.failed, ?_, rfl⟩
  rw [h.nblks, imageCreate, h.size]

/-! ## In range -/

theorem passes (h : im.Holds s) (hle : first + len ≤ g.nblks) {a : Request}
    (ho : a.offset = Int32.ofNat first) (hl : a.len = Int32.ofNat len) :
    a.Passes (imageCreate im.file).nblks ∧ a.Small := by
  have hg := g.nblks_lt
  have hfirst := Int32.toInt_ofNat_of_lt (show first < 2 ^ 31 by omega)
  have hlen := Int32.toInt_ofNat_of_lt (show len < 2 ^ 31 by omega)
  have hsum := Int32.toInt_ofNat_of_lt (show first + len < 2 ^ 31 by omega)
  have hzero : (0 : Int32).toInt = 0 := rfl
  have hnblks : (imageCreate im.file).nblks.toInt = g.nblks := by
    rw [imageCreate, h.size, Int32.toInt_ofNat_of_lt (by omega)]
  unfold Request.Passes Request.Small
  rw [ho, hl, ← Int32.ofNat_add]
  simp only [Int32.le_iff_toInt_le, hzero, hfirst, hlen, hsum, hnblks]
  omega

theorem imageRead (h : im.Holds s) (hle : first + len ≤ g.nblks) (buf : ℕ → UInt8) :
    ∃ buf', im.imageRead (Int32.ofNat first) (Int32.ofNat len) buf = .ok (SUCCESS, buf') ∧
      ∀ k < len, blockAt buf' k = s.disk (first + k) := by
  have hg := g.nblks_lt
  have hreq : (Request.read (Int32.ofNat first) (Int32.ofNat len) buf).Passes _ ∧ _ :=
    h.passes hle rfl rfl
  obtain ⟨buf', hread, hbuf⟩ := h.openOn.imageRead hreq.1 hreq.2
  rw [Int32.toNatClampNeg_ofNat_of_lt (by omega), Int32.toNatClampNeg_ofNat_of_lt (by omega)] at hbuf
  exact ⟨buf', hread, fun k hk => (hbuf k hk).trans (h.block _ (by omega))⟩

theorem imageWrite (h : im.Holds s) (hle : first + len ≤ g.nblks) (buf : ℕ → UInt8) :
    ∃ im', im.imageWrite (Int32.ofNat first) (Int32.ofNat len) buf = .ok (SUCCESS, im') ∧
      ∀ s' : FS g, s'.disk = store s.disk ⟨first, len, blockAt buf⟩ → im'.Holds s' := by
  have hg := g.nblks_lt
  have hreq : (Request.write (Int32.ofNat first) (Int32.ofNat len) buf).Passes _ ∧ _ :=
    h.passes hle rfl rfl
  obtain ⟨im', hwrite, hopen, hblock⟩ := h.openOn.imageWrite hreq.1 hreq.2
  rw [Int32.toNatClampNeg_ofNat_of_lt (by omega), Int32.toNatClampNeg_ofNat_of_lt (by omega)] at hblock
  refine ⟨im', hwrite, fun s' hdisk => ⟨hopen.failed, ?_, ?_, fun b hb => ?_⟩⟩
  · rw [hopen.nblks, imageCreate, h.size]
  · rw [hopen.size, h.size]
  · rw [hblock, hdisk]
    by_cases hw : (Write.mk first len (blockAt buf)).Covers b
    · rw [store_of_covers hw, store_of_covers hw]
    · rw [store_of_not_covers hw, store_of_not_covers hw, h.block b hb]

/-! ## Out of range -/

/-- A pointer past the end is refused, or the kernel is asked for a negative offset. -/
theorem outside (h : im.Holds s) (hp : g.nblks ≤ p.toNat) :
    ¬ im.InRange p.toInt32 1 ∨ offsetArg p.toInt32 < 0 := by
  have hint : p.toInt32.toInt = (p.toNat : ℤ).bmod (2 ^ 32) := BitVec.toInt_eq_toNat_bmod p.toBitVec
  have hlt := p.toNat_lt
  have hg := g.nblks_lt
  by_cases hmax : p.toNat = 2 ^ 31 - 1
  · obtain rfl : p = 2147483647 := UInt32.toNat_inj.1 hmax
    exact Or.inr (by decide)
  · refine Or.inl fun ⟨h0, hle⟩ => ?_
    have hnblks : im.nblks.toInt = g.nblks := by
      rw [h.nblks, Int32.toInt_ofNat_of_lt (by omega)]
    rw [Int32.le_iff_toInt_le, hint, show (0 : Int32).toInt = 0 from rfl, Int.bmod_def] at h0
    rw [Int32.le_iff_toInt_le, hnblks, Int32.toInt_add, hint, show (1 : Int32).toInt = 1 from rfl,
      Int.bmod_def, Int.bmod_def] at hle
    split at h0 <;> split at hle <;> omega

theorem imageRead_error (h : im.Holds s) (hp : g.nblks ≤ p.toNat) (buf : ℕ → UInt8) :
    ∃ e, im.imageRead p.toInt32 1 buf = .error e := by
  rw [ImageDev.imageRead, if_neg (by simp [h.failed])]
  rcases h.outside hp with hrange | hneg
  · exact ⟨_, if_neg hrange⟩
  · rw [File.pread, if_pos (Or.inl hneg)]
    split <;> exact ⟨_, rfl⟩

theorem imageWrite_error (h : im.Holds s) (hp : g.nblks ≤ p.toNat) (buf : ℕ → UInt8) :
    ∃ e, im.imageWrite p.toInt32 1 buf = .error e := by
  rw [ImageDev.imageWrite, if_neg (by simp [h.failed])]
  rcases h.outside hp with hrange | hneg
  · exact ⟨_, if_neg hrange⟩
  · rw [File.pwrite, if_pos (Or.inl hneg)]
    split <;> exact ⟨_, rfl⟩

/-! ## The accesses of `main.c` -/

/-- **Reading a block** gives the same block on both sides, or stops on both. -/
theorem readBlock (h : im.Holds s) (p : UInt32) (buf : ℕ → UInt8) :
    (∃ buf', im.imageRead p.toInt32 1 buf = .ok (SUCCESS, buf') ∧
      s.readBlock p.toNat = .ok (blockAt buf' 0)) ∨
    (∃ e, im.imageRead p.toInt32 1 buf = .error e) ∧ ∃ e, s.readBlock p.toNat = .error e := by
  by_cases hp : p.toNat < g.nblks
  · obtain ⟨buf', hread, hbuf⟩ := h.imageRead (show p.toNat + 1 ≤ g.nblks from hp) buf
    rw [← toInt32_eq] at hread
    refine Or.inl ⟨buf', hread, ?_⟩
    rw [FS.readBlock, if_pos hp, hbuf 0 Nat.zero_lt_one, Nat.add_zero]
  · exact Or.inr ⟨h.imageRead_error (Nat.not_lt.1 hp) buf, _, if_neg hp⟩

/-- **Writing a block**: the device holds the disk of the next state, or both stop. -/
theorem writeBlock (h : im.Holds s) (p : UInt32) (buf : ℕ → UInt8) :
    (∃ im' s', im.imageWrite p.toInt32 1 buf = .ok (SUCCESS, im') ∧
      s.writeBlock p.toNat (blockAt buf 0) = .ok s' ∧ im'.Holds s') ∨
    (∃ e, im.imageWrite p.toInt32 1 buf = .error e) ∧
      ∃ e, s.writeBlock p.toNat (blockAt buf 0) = .error e := by
  by_cases hp : p.toNat < g.nblks
  · obtain ⟨im', hwrite, hholds⟩ := h.imageWrite (show p.toNat + 1 ≤ g.nblks from hp) buf
    rw [← toInt32_eq] at hwrite
    exact Or.inl ⟨im', _, hwrite, FS.writeBlock_returns hp _, hholds _ (store_one ..).symm⟩
  · exact Or.inr ⟨h.imageWrite_error (Nat.not_lt.1 hp) buf, _, if_neg hp⟩

/-- **Writing a region**: the device holds the disk of the next state. -/
theorem writeRegion (h : im.Holds s) (hle : first + len ≤ g.nblks) {f : ℕ → Block}
    (hbuf : ∀ k < len, blockAt buf k = f k) :
    ∃ im', im.imageWrite (Int32.ofNat first) (Int32.ofNat len) buf = .ok (SUCCESS, im') ∧
      im'.Holds (s.writeRegion first len f) := by
  obtain ⟨im', hwrite, hholds⟩ := h.imageWrite hle buf
  exact ⟨im', hwrite, hholds _ (store_congr hbuf).symm⟩

end ImageDev.Holds

open Mkfs

/-- **The device on the file that `mkfs-x6` has written.** -/
theorem holds_fresh {n : ℕ} (h : Formattable n) (t : UInt32) {f : File} (hsize : f.size = 1024 * n)
    (hblock : ∀ b < n, f.block b = block n t b) : (imageCreate f).Holds (fresh h t) := by
  have hdiv : f.size / 1024 = n := by omega
  refine ⟨rfl, ?_, hdiv, hblock⟩
  rw [imageCreate, hdiv]
  rfl

end Fsx600
