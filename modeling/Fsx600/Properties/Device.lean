import Fsx600.Model.Device
import Mathlib.Algebra.Ring.Int.Defs

/-!
# The image as an array of blocks

`image_read` and `image_write` check block numbers against the size of the image, and then go on
with `offset*BLOCK_SIZE` and `len*BLOCK_SIZE`, products of `int`s.  From block `2^21` on, which is
at 2 GiB, these are not the numbers of bytes that are meant: the access goes elsewhere, or fails.

* `exact_iff`: which requests are for the bytes that are meant;
* `actsAsArray_iff`: the device is an array of blocks for just those sequences of calls that are
  made of such requests;
* `not_actsAsArray`: a block written at 4 GiB lands on block 0.
-/

namespace Fsx600

open Checked RangeArray

variable {f : File} {im : ImageDev} {offset len : Int32} {buf : ℕ → UInt8} {o l : ℕ}

/-! ## Numbers of bytes -/

theorem toInt_mul_1024_eq_iff {a : Int32} (h : 0 ≤ a) : (a * 1024).toInt = 1024 * a.toInt ↔ a.toInt < 2 ^ 21 := by
  have h0 : 0 ≤ a.toInt := Int32.le_iff_toInt_le.1 h
  have hlt := a.toInt_lt
  have hmul : (a * 1024).toInt = (a.toInt * 1024).bmod (2 ^ 32) := Int32.toInt_mul a 1024
  rw [hmul, Int.bmod_def]
  split <;> omega

theorem toInt_eq_bmod (x : Int64) : x.toInt = (x.toUInt64.toNat : ℤ).bmod (2 ^ 64) :=
  BitVec.toInt_eq_toNat_bmod x.toBitVec

namespace Request

/-- What is passed to the kernel is what is meant. -/
structure Exact (a : Request) : Prop where
  offset : (offsetArg a.offset).toInt = 1024 * a.offset.toInt
  count : ((countArg a.len).toNat : ℤ) = 1024 * a.len.toInt

/-- The offset and the length are less than what 2 GiB are in blocks. -/
def Small (a : Request) : Prop := a.offset.toInt < 2 ^ 21 ∧ a.len.toInt < 2 ^ 21

instance (a : Request) : Decidable a.Small :=
  inferInstanceAs (Decidable (_ ∧ _))

end Request

theorem countArg_eq_iff (h : 0 ≤ len) : ((countArg len).toNat : ℤ) = 1024 * len.toInt ↔ len.toInt < 2 ^ 21 := by
  have h0 : 0 ≤ len.toInt := Int32.le_iff_toInt_le.1 h
  have hlt := len.toInt_lt
  have hmod : (len * 1024).toInt = ((countArg len).toNat : ℤ).bmod (2 ^ 64) := by
    rw [countArg, ← toInt_eq_bmod, Int32.toInt_toInt64]
  have hmul := toInt_mul_1024_eq_iff h
  have hrange := (len * 1024).toInt_lt
  have hcount := (countArg len).toNat_lt
  rw [← hmul, hmod, Int.bmod_def]
  split <;> omega

theorem exact_iff {a : Request} {nblks : Int32} (h : a.Passes nblks) : a.Exact ↔ a.Small := by
  have hoffset : (offsetArg a.offset).toInt = 1024 * a.offset.toInt ↔ a.offset.toInt < 2 ^ 21 := by
    rw [offsetArg, Int32.toInt_toInt64, toInt_mul_1024_eq_iff h.1.1]
  have hcount := countArg_eq_iff h.2
  exact ⟨fun he => ⟨hoffset.1 he.offset, hcount.1 he.count⟩, fun hs => ⟨hoffset.2 hs.1, hcount.2 hs.2⟩⟩

/-! ## One call -/

/-- What a small request asks for lies in the file. -/
theorem Request.Passes.le_size {a : Request} (h : a.Passes (imageCreate f).nblks) (hs : a.Small) :
    a.offset.toNatClampNeg + a.len.toNatClampNeg ≤ f.size / 1024 := by
  have hoffset := Int32.cast_toNatClampNeg a.offset h.1.1
  have hlen := Int32.cast_toNatClampNeg a.len h.2
  have hle : (a.offset + a.len).toInt ≤ (imageCreate f).nblks.toInt := Int32.le_iff_toInt_le.1 h.1.2
  have hsum : (a.offset + a.len).toInt = a.offset.toInt + a.len.toInt := by
    obtain ⟨h1, h2⟩ := hs
    rw [Int32.toInt_add, Int.bmod_def]
    split <;> omega
  have hnblks : (imageCreate f).nblks.toInt ≤ (f.size / 1024 : ℕ) := by
    have hcast : (imageCreate f).nblks.toInt = ((f.size / 1024 : ℕ) : ℤ).bmod (2 ^ 32) :=
      Int32.toInt_ofNat'
    rw [hcast, Int.bmod_def]
    split <;> omega
  omega

section Call

variable (h0 : 0 ≤ offset ∧ 0 ≤ len) (hs : offset.toInt < 2 ^ 21 ∧ len.toInt < 2 ^ 21)
include h0 hs

theorem countArg_toNat : (countArg len).toNat = 1024 * len.toNatClampNeg := by
  have hcount := (countArg_eq_iff h0.2).2 hs.2
  have hlen := Int32.cast_toNatClampNeg len h0.2
  omega

theorem offsetArg_toNat : ¬ offsetArg offset < 0 ∧ (offsetArg offset).toNatClampNeg = 1024 * offset.toNatClampNeg := by
  have hint : (offsetArg offset).toInt = 1024 * offset.toInt := by
    rw [offsetArg, Int32.toInt_toInt64, (toInt_mul_1024_eq_iff h0.1).2 hs.1]
  have hoffset := Int32.cast_toNatClampNeg offset h0.1
  rw [Int64.lt_iff_toInt_lt, ← Int64.toNat_toInt, hint]
  change ¬ _ < (0 : ℤ) ∧ _
  omega

/-- A transfer of all that was asked for is recognised as one. -/
theorem toInt32_count : (Int64.ofNat (1024 * len.toNatClampNeg)).toInt32 = len * 1024 := by
  have hlen := Int32.cast_toNatClampNeg len h0.2
  have hmul := (toInt_mul_1024_eq_iff h0.2).2 hs.2
  rw [← Int32.toInt_inj, Int64.toInt_toInt32, Int64.toInt_ofNat_of_lt (by omega), hmul, Int.bmod_def]
  split <;> omega

theorem not_neg_count : ¬ len * 1024 < 0 := by
  have hlen : 0 ≤ len.toInt := Int32.le_iff_toInt_le.1 h0.2
  rw [Int32.lt_iff_toInt_lt, (toInt_mul_1024_eq_iff h0.2).2 hs.2]
  change ¬ _ < (0 : ℤ)
  omega

variable (hopen : im.failed = false) (hrange : im.InRange offset len)
include hopen hrange

/-- **A read** copies the bytes of its blocks. -/
theorem imageRead_eq (hle : offset.toNatClampNeg + len.toNatClampNeg ≤ im.file.size / 1024) :
    im.imageRead offset len buf = .ok (SUCCESS, store buf ⟨0, 1024 * len.toNatClampNeg,
      fun x => im.file.byte (1024 * offset.toNatClampNeg + x)⟩) := by
  have hlen := hs.2
  have hcast := Int32.cast_toNatClampNeg len h0.2
  have hcount := countArg_toNat h0 hs
  obtain ⟨hneg, hoffset⟩ := offsetArg_toNat h0 hs
  have hpread : im.file.pread buf (countArg len) (offsetArg offset) =
      (Int64.ofNat (1024 * len.toNatClampNeg), store buf ⟨0, 1024 * len.toNatClampNeg,
        fun x => im.file.byte (1024 * offset.toNatClampNeg + x)⟩) := by
    have hmin : min (1024 * len.toNatClampNeg) (im.file.size - 1024 * offset.toNatClampNeg) =
        1024 * len.toNatClampNeg := by
      omega
    rw [File.pread, hcount, hoffset, if_neg (not_or.2 ⟨hneg, by omega⟩), hmin]
  rw [ImageDev.imageRead, if_neg (by simp [hopen]), if_pos hrange, hpread]
  dsimp only
  rw [toInt32_count h0 hs, if_neg (not_neg_count h0 hs), if_neg (not_not.2 rfl)]

/-- **A write** puts the bytes of the buffer there. -/
theorem imageWrite_eq : im.imageWrite offset len buf = .ok (SUCCESS,
    { im with file := im.file.put buf (1024 * len.toNatClampNeg) (1024 * offset.toNatClampNeg) }) := by
  have hlen := hs.2
  have hcast := Int32.cast_toNatClampNeg len h0.2
  have hcount := countArg_toNat h0 hs
  obtain ⟨hneg, hoffset⟩ := offsetArg_toNat h0 hs
  have hpwrite : im.file.pwrite buf (countArg len) (offsetArg offset) =
      (Int64.ofNat (1024 * len.toNatClampNeg),
        im.file.put buf (1024 * len.toNatClampNeg) (1024 * offset.toNatClampNeg)) := by
    rw [File.pwrite, hcount, hoffset, if_neg (not_or.2 ⟨hneg, by omega⟩)]
  rw [ImageDev.imageWrite, if_neg (by simp [hopen]), if_pos hrange, hpwrite]
  dsimp only
  rw [toInt32_count h0 hs, if_neg (not_not.2 rfl)]

end Call

/-! ## Blocks -/

/-- The blocks of a file. -/
def File.block (f : File) : ℕ → Block := blockAt f.byte

/-- The blocks of the buffer after a read. -/
theorem blockAt_store (bytes : ℕ → UInt8) {k : ℕ} (hk : k < l) :
    blockAt (store buf ⟨0, 1024 * l, fun x => bytes (1024 * o + x)⟩) k = blockAt bytes (o + k) := by
  have hgroup := group_store (n := 1024) buf 0 l fun x => bytes (1024 * o + x)
  rw [Nat.mul_zero] at hgroup
  rw [blockAt, hgroup, store_of_covers ⟨Nat.zero_le k, by dsimp only; omega⟩]
  funext x
  show bytes (1024 * o + (1024 * (k - 0) + x)) = bytes (1024 * (o + k) + x)
  rw [Nat.sub_zero, Nat.mul_add, Nat.add_assoc]

/-- The blocks of the file after a write. -/
theorem block_put (f : File) : (f.put buf (1024 * l) (1024 * o)).block = store f.block ⟨o, l, blockAt buf⟩ :=
  group_store f.byte o l buf

/-- A write inside the file does not change its size. -/
theorem size_put (h : o + l ≤ f.size / 1024) : (f.put buf (1024 * l) (1024 * o)).size = f.size := by
  show (if 1024 * l = 0 then f.size else max f.size (1024 * o + 1024 * l)) = f.size
  split
  · rfl
  · omega

/-! ## Sequences of calls -/

/-- The write to blocks that a request makes. -/
def Request.toWrite : Request → Option (Write Block)
  | .read _ _ _ => none
  | .write offset len buf => some ⟨offset.toNatClampNeg, len.toNatClampNeg, blockAt buf⟩

/-- The device on the file `f`, some calls later. -/
structure OpenOn (f : File) (im : ImageDev) : Prop where
  failed : im.failed = false
  nblks : im.nblks = (imageCreate f).nblks
  size : im.file.size = f.size

theorem openOn_imageCreate (f : File) : OpenOn f (imageCreate f) := ⟨rfl, rfl, rfl⟩

/-- A read gets the blocks as they are. -/
theorem OpenOn.imageRead (h : OpenOn f im) (hpass : (Request.read offset len buf).Passes (imageCreate f).nblks)
    (hs : (Request.read offset len buf).Small) : ∃ buf', im.imageRead offset len buf = .ok (SUCCESS, buf') ∧
      ∀ k < len.toNatClampNeg, blockAt buf' k = im.file.block (offset.toNatClampNeg + k) := by
  have hle : offset.toNatClampNeg + len.toNatClampNeg ≤ f.size / 1024 := hpass.le_size hs
  have hrange : im.InRange offset len := ⟨hpass.1.1, h.nblks ▸ hpass.1.2⟩
  rw [← h.size] at hle
  exact ⟨_, imageRead_eq ⟨hpass.1.1, hpass.2⟩ hs h.failed hrange hle, fun k hk => blockAt_store _ hk⟩

/-- A write changes the blocks it is for. -/
theorem OpenOn.imageWrite (h : OpenOn f im) (hpass : (Request.write offset len buf).Passes (imageCreate f).nblks)
    (hs : (Request.write offset len buf).Small) : ∃ im', im.imageWrite offset len buf = .ok (SUCCESS, im') ∧
      OpenOn f im' ∧
        im'.file.block = store im.file.block ⟨offset.toNatClampNeg, len.toNatClampNeg, blockAt buf⟩ := by
  have hle : offset.toNatClampNeg + len.toNatClampNeg ≤ f.size / 1024 := hpass.le_size hs
  have hrange : im.InRange offset len := ⟨hpass.1.1, h.nblks ▸ hpass.1.2⟩
  rw [← h.size] at hle
  exact ⟨_, imageWrite_eq ⟨hpass.1.1, hpass.2⟩ hs h.failed hrange,
    ⟨h.failed, h.nblks, (size_put hle).trans h.size⟩, block_put im.file⟩

/-- A call succeeds, and what it does to the blocks is the write that it makes, if it makes one. -/
theorem OpenOn.serve (h : OpenOn f im) {a : Request} (hpass : a.Passes (imageCreate f).nblks)
    (hs : a.Small) : ∃ buf im', im.serve a = .ok (SUCCESS, buf, im') ∧ OpenOn f im' ∧
      im'.file.block = storeAll im.file.block a.toWrite.toList := by
  cases a with
  | read offset len buf =>
    obtain ⟨buf', hread, -⟩ := h.imageRead hpass hs
    exact ⟨buf', im, by rw [ImageDev.serve, hread]; rfl, h, rfl⟩
  | write offset len buf =>
    obtain ⟨im', hwrite, hopen, hblock⟩ := h.imageWrite hpass hs
    exact ⟨buf, im', by rw [ImageDev.serve, hwrite]; rfl, hopen, hblock⟩

/-- **All the calls**: the blocks are what the writes among them have made of them. -/
theorem OpenOn.serveAll (h : OpenOn f im) {calls : List Request}
    (hpass : ∀ a ∈ calls, a.Passes (imageCreate f).nblks) (hs : ∀ a ∈ calls, a.Small) :
    ∃ im', im.serveAll calls = .ok im' ∧ OpenOn f im' ∧
      im'.file.block = storeAll im.file.block (calls.filterMap Request.toWrite) := by
  induction calls generalizing im with
  | nil => exact ⟨im, rfl, h, rfl⟩
  | cons a rest ih =>
    obtain ⟨buf, u, hu, hopen, hblock⟩ := h.serve (hpass a List.mem_cons_self) (hs a List.mem_cons_self)
    obtain ⟨w, hw, hopen', hblock'⟩ := ih hopen (fun b hb => hpass b (List.mem_cons_of_mem a hb))
      fun b hb => hs b (List.mem_cons_of_mem a hb)
    refine ⟨w, ?_, hopen', ?_⟩
    · rw [ImageDev.serveAll, hu, ok_bind]
      exact hw
    · rw [hblock', hblock, List.filterMap_cons]
      cases a.toWrite <;> rfl

/-- The call does what it would do on an array with the given contents: a read gets the blocks it
asks for, and a write leaves all others alone. -/
def Request.Served (im : ImageDev) (contents : ℕ → Block) : Request → Prop
  | .read offset len buf => ∃ buf', im.imageRead offset len buf = .ok (SUCCESS, buf') ∧
      ∀ k < len.toNatClampNeg, blockAt buf' k = contents (offset.toNatClampNeg + k)
  | .write offset len buf => ∃ im', im.imageWrite offset len buf = .ok (SUCCESS, im') ∧
      ∀ b, ¬ (offset.toNatClampNeg ≤ b ∧ b < offset.toNatClampNeg + len.toNatClampNeg) →
        im'.file.block b = im.file.block b

/-- Each of the calls asks for the bytes that are meant, and is served from the history: what a
block holds is what the last write before that covers it has put there, or what it held at first. -/
def ActsAsArray (f : File) (calls : List Request) : Prop :=
  ∀ before a after, calls = before ++ a :: after → a.Exact ∧
    ∃ im, (imageCreate f).serveAll before = .ok im ∧
      a.Served im fun b => (lastWrite b (before.filterMap Request.toWrite)).getD (f.block b)

/-- **The image as an array of blocks**, for every file and every sequence of calls that pass the
assertion: it is one exactly when no call is for a block or a number of blocks from `2^21` on. -/
theorem actsAsArray_iff (f : File) (calls : List Request)
    (hpass : ∀ a ∈ calls, a.Passes (imageCreate f).nblks) :
    ActsAsArray f calls ↔ ∀ a ∈ calls, a.Small := by
  constructor
  · intro h a ha
    obtain ⟨before, after, hsplit⟩ := List.append_of_mem ha
    exact (exact_iff (hpass a ha)).1 (h before a after hsplit).1
  · intro hs before a after hsplit
    have hmem : a ∈ calls := hsplit ▸ List.mem_append_right before List.mem_cons_self
    have hbefore : ∀ b ∈ before, b ∈ calls := fun b hb => hsplit ▸ List.mem_append_left _ hb
    obtain ⟨im, him, hopen, hblock⟩ := (openOn_imageCreate f).serveAll
      (fun b hb => hpass b (hbefore b hb)) fun b hb => hs b (hbefore b hb)
    refine ⟨(exact_iff (hpass a hmem)).2 (hs a hmem), im, him, ?_⟩
    cases a with
    | read offset len buf =>
      obtain ⟨buf', hread, hbuf⟩ := hopen.imageRead (hpass _ hmem) (hs _ hmem)
      refine ⟨buf', hread, fun k hk => ?_⟩
      rw [hbuf k hk, hblock, storeAll_eq]
      rfl
    | write offset len buf =>
      obtain ⟨im', hwrite, -, hblock'⟩ := hopen.imageWrite (hpass _ hmem) (hs _ hmem)
      exact ⟨im', hwrite, fun b hb => (congrFun hblock' b).trans (store_of_not_covers hb)⟩

/-- A file of `n` blocks of zeros. -/
def zeroFile (n : ℕ) : File := ⟨1024 * n, fun _ => 0, fun _ _ => rfl⟩

/-- The last block before 2 GiB is written, and read back with the one before it. -/
def lastBlock : List Request := [.write 2097151 1 fun _ => 1, .read 2097150 2 fun _ => 0]

theorem actsAsArray_lastBlock : ActsAsArray (zeroFile 2097152) lastBlock :=
  (actsAsArray_iff (zeroFile 2097152) lastBlock (by decide)).2 (by decide)

/-- On an image of 4 GiB and one block, that block is written: block 0 is overwritten. -/
theorem not_actsAsArray : ¬ ∀ (f : File) (calls : List Request), f.size % 1024 = 0 →
    f.size / 1024 < 2 ^ 31 → (∀ a ∈ calls, a.Passes (imageCreate f).nblks) → ActsAsArray f calls := by
  intro hall
  have hone : ActsAsArray (zeroFile 4194305) [.write 4194304 1 fun _ => 1] :=
    hall _ _ (by decide) (by decide) (by decide)
  obtain ⟨-, im, him, im', hwrite, hframe⟩ := hone [] _ [] rfl
  obtain rfl := Except.ok.inj him
  -- the product of the block number and the block size is 0
  have hput : (imageCreate (zeroFile 4194305)).imageWrite 4194304 1 (fun _ => 1) =
      .ok (SUCCESS, { imageCreate (zeroFile 4194305) with file := (zeroFile 4194305).put (fun _ => 1) 1024 0 }) :=
    rfl
  obtain ⟨-, rfl⟩ := Prod.mk.inj (Except.ok.inj (hwrite.symm.trans hput))
  have hbyte : (((zeroFile 4194305).put (fun _ => 1) 1024 0).block 0).byte 0 = 1 := rfl
  have hzero := congrArg (fun b => b.byte 0) (hframe 0 (by decide))
  exact absurd (hbyte.symm.trans hzero) (by decide)

end Fsx600
