import Fsx600.Spec.DiskFull
import Fsx600.Properties.Extending

/-!
# The largest file

The slots of a file have room for 65798 blocks.  A write that starts below the end of the last of
them and goes past it fills the slots and returns.  A write that starts at the end takes none of
the three branches of the dispatch and falls into the loop over the direct blocks.  That loop has
nothing left to do but to set the offset to 0, and the next one starts at its first entry: the
buffer is written over the file from byte 6144 on.

* `respectsLimit_iff`: which writes stay where they belong;
* `not_respectsLimit`: a byte written at the end of a file that has all blocks it can have.
-/

namespace Fsx600

open Checked Function GuardedRun Mkfs

namespace FS

variable {g : Layout} {s t : FS g} {c : Context} {path : Path} {buf : ℕ → UInt8}
  {i x y z len offset : ℕ} {r : ℤ} {v w : WriteVars g} {f : Flow g}

/-- A write of `len` bytes at `offset` that returned `r` has respected the place where it starts
and the end of the last block that a file can have. -/
structure RespectsLimit (i : ℕ) (buf : ℕ → UInt8) (len offset : ℕ) (r : ℤ) (s t : FS g) : Prop where
  /-- What is below `offset` is as it was. -/
  below : ∀ y < offset, t.byteAt i y = s.byteAt i y
  /-- Nothing is written past the limit. -/
  beyond : 65798 * 1024 ≤ offset → r ≤ 0 ∧ ∀ y, t.byteAt i y = s.byteAt i y
  /-- A write across the limit stores and counts what is below it. -/
  across : offset < 65798 * 1024 → 65798 * 1024 < offset + len → 0 ≤ r →
    r = (65798 * 1024 - offset : ℕ) ∧
      ∀ y, offset ≤ y → y < 65798 * 1024 → t.byteAt i y = some (buf (y - offset))

/-- After a pass at data slot `x` that starts within its block, the others start at the beginning
of theirs. -/
def LoneStart (s : FS g) (i x : ℕ) : Prop :=
  x + 1 = 6 ∨ x + 1 = 262 ∨ (x < 262 ∧ s.pointer i (dataSlot (x + 1)) = 0) ∨
    ∀ z, x < z → s.pointer i (dataSlot z) = 0

/-! ## Below the start -/

/-- The bytes below the start of a write are as they were, if the block that it starts in is
there or is not taken. -/
theorem Writes.below_iff (h : Writes NoLeftovers i 65798 x v f) (hv : Ready i v) (hx : x < 65798)
    (hxo : v.offset / 1024 = x) : (∀ y < v.offset, f.state.byteAt i y = v.fs.byteAt i y) ↔
      v.offset % 1024 = 0 ∨ v.fs.pointer i (dataSlot x) ≠ 0 ∨ ¬ v.fs.Supplied i 1 x v.offset v.len := by
  constructor
  · intro hbelow
    by_contra hnot
    rw [not_or, not_or, not_not, not_not] at hnot
    obtain ⟨hmis, h0, hs⟩ := hnot
    -- the new block has a first byte
    have hdiv : 1024 * x / 1024 = x := by omega
    have hsame := hbelow (1024 * x) (by omega)
    rw [byteAt_of_pointer_eq_zero (s := v.fs) (by rwa [hdiv]),
      byteAt_of_pointer (by rw [hdiv]; exact h.pointer_of_supplied hv hx hs)] at hsame
    exact Option.some_ne_none _ hsame
  · intro hcond y hy
    rcases Nat.lt_or_ge (y / 1024) x with hyx | hyx
    · exact h.byteAt_of_lt hv hyx
    · have hyx : y / 1024 = x := by omega
      rcases hcond with halign | h0 | hs
      · omega
      · obtain ⟨p, base, w, hp, hends⟩ := h.first_pass h0
        have hkept := hp.byteAt_of_lt_start h0 hyx (Or.inl (by omega))
        rcases hends with ⟨-, rfl⟩ | ⟨-, hrest⟩
        · exact hkept
        · rw [hrest.byteAt_of_lt (hp.ready.resume _) (by omega), resume_fs, hkept]
      · exact h.byteAt_of_not_supplied (n := 0) hv (by omega) (by omega) hs

/-! ## Across the limit -/

/-- If every pass fills its block from the beginning, the rest of the file is written. -/
theorem Writes.across_of_straight (h : Writes NoLeftovers i 65798 x v f) (hv : Ready i v)
    (hst : Straight i x v) (hx : x ≤ 65798) (h0 : 0 ≤ f.total) (hlen : 1024 * (65798 - x) ≤ v.len) :
    f.total = v.total + (1024 * (65798 - x) : ℕ) ∧
      ∀ y, 1024 * x ≤ y → y < 65798 * 1024 → f.state.byteAt i y = some (v.buf (y - 1024 * x)) := by
  constructor
  · rw [h.total_of_straight hst h0 hx, min_eq_right hlen]
  · intro y hle hlt
    have hs := (h.total_nonneg_iff hv (Nat.sub_add_cancel hx)).1 h0
    exact h.byteAt_of_supplied (n := y / 1024 - x) hv hst (by omega) (by omega) (hs.mono (by omega))
      (Or.inl (by omega))

/-- After the one pass that starts within its block. -/
theorem LoneStart.straight (h : v.fs.LoneStart i x) {p : UInt32} {base : Block} {start : ℕ}
    (hp : Pass i x p base start v w) : Straight i (x + 1) (resume (x + 1) w) := by
  unfold Straight
  rw [resume_fs, hp.resume_offset]
  rcases h with h | h | ⟨hx, h⟩ | h
  · exact Or.inl (by rw [if_pos (Or.inr (Or.inl h))])
  · exact Or.inl (by rw [if_pos (Or.inr (Or.inr h))])
  · by_cases h262 : x + 1 = 262
    · exact Or.inl (by rw [if_pos (Or.inr (Or.inr h262))])
    · refine Or.inr (Or.inl ⟨by omega, ?_⟩)
      rwa [hp.pointer_of_ne (by omega)]
  · refine Or.inr (Or.inr fun z hz => ?_)
    rw [hp.pointer_of_ne (by omega)]
    exact h z (by omega)

/-- If there is another such pass, its slot is the next or in the last loop. -/
theorem exists_of_not_loneStart (h : ¬ s.LoneStart i x) : x + 1 ≠ 6 ∧ x + 1 ≠ 262 ∧
    ∃ z, x + 1 ≤ z ∧ s.pointer i (dataSlot z) ≠ 0 ∧ (z = x + 1 ∨ 262 ≤ x + 1) := by
  unfold LoneStart at h
  push Not at h
  obtain ⟨h6, h262, hnext, z, hz, h0⟩ := h
  refine ⟨h6, h262, ?_⟩
  by_cases hx : x < 262
  · exact ⟨x + 1, le_rfl, hnext hx, Or.inl rfl⟩
  · exact ⟨z, hz, h0, Or.inr (by omega)⟩

/-- **A write across the limit** stores and counts what is below it exactly when at most the
first pass starts within its block. -/
theorem Writes.across_iff (h : Writes NoLeftovers i 65798 x v f) (hv : Ready i v) (hx : x < 65798)
    (hxo : v.offset / 1024 = x) (hstart : v.offset % 1024 = 0 ∨ v.fs.pointer i (dataSlot x) ≠ 0)
    (hlen : 65798 * 1024 < v.offset + v.len) (h0 : 0 ≤ f.total) :
    (f.total = v.total + (65798 * 1024 - v.offset : ℕ) ∧
      ∀ y, v.offset ≤ y → y < 65798 * 1024 → f.state.byteAt i y = some (v.buf (y - v.offset))) ↔
        v.offset % 1024 = 0 ∨ v.fs.LoneStart i x := by
  by_cases halign : v.offset % 1024 = 0
  · obtain ⟨htotal, hbytes⟩ := h.across_of_straight hv (Or.inl halign) hx.le h0 (by omega)
    have hoffset : v.offset = 1024 * x := by omega
    refine iff_of_true ⟨by omega, fun y hle hlt => ?_⟩ (Or.inl halign)
    rw [hoffset]
    exact hbytes y (by omega) hlt
  have hmapped := hstart.resolve_left halign
  rw [or_iff_right halign]
  obtain ⟨p, base, w, hp, ⟨hend, rfl⟩ | ⟨hend, hrest⟩⟩ := h.first_pass hmapped
  · -- the buffer goes past the first block
    obtain ⟨-, hroom⟩ := hp.fill_last hend
    omega
  obtain ⟨hall, hroom⟩ := hp.fill_pass hend
  have htotalw := hp.total
  have hlenw := hp.len
  constructor
  · rintro ⟨htotal, -⟩
    by_contra hlone
    obtain ⟨h6, h262, z, hz, hz0, hlate⟩ := exists_of_not_loneStart hlone
    have hle := hrest.total_le_of_mapped hz (by rwa [resume_fs, hp.pointer_of_ne (by omega)]) hlate
    rw [resume_total, hp.resume_offset, if_neg (by omega)] at hle
    omega
  · intro hlone
    obtain ⟨htotal, hbytes⟩ := hrest.across_of_straight (hp.ready.resume _) (hlone.straight hp) hx h0
      (by rw [resume_len]; omega)
    rw [resume_total] at htotal
    refine ⟨by omega, fun y hle hlt => ?_⟩
    rcases Nat.lt_or_ge (y / 1024) (x + 1) with hyx | hyx
    · have hoffset : y - v.offset = y % 1024 - v.offset % 1024 := by omega
      rw [hrest.byteAt_of_lt (hp.ready.resume _) hyx, resume_fs, hoffset]
      exact hp.byteAt_filled (by omega) (by omega) (by omega)
    · rw [hbytes y (by omega) hlt, resume_buf, hp.buf, hall]
      have hsame : 1024 - v.offset % 1024 + (y - 1024 * (x + 1)) = y - v.offset := by omega
      exact congrArg (fun m => some (v.buf m)) hsame

/-! ## Beyond the limit -/

/-- **A write that starts over at slot 6** does nothing to the file exactly when it has nothing to
write, or when it comes to a full disk and all that it has written by then was there before. -/
theorem Writes.beyond_iff (h : Writes NoLeftovers i 65798 6 v f) (hv : Ready i v) (hoffset : v.offset = 0)
    (htotal : v.total = 0) : (f.total ≤ 0 ∧ ∀ y, f.state.byteAt i y = v.fs.byteAt i y) ↔
      (v.len = 0 ∧ v.fs.pointer i (dataSlot 6) ≠ 0) ∨ (¬ v.fs.Supplied i 65792 6 v.offset v.len ∧
        ∀ y, 6144 ≤ y → y < 65798 * 1024 → v.fs.Supplied i (y / 1024 - 5) 6 v.offset v.len →
          v.fs.byteAt i y = some (v.buf (y - 6144))) := by
  have hst : Straight i 6 v := Or.inl (by rw [hoffset])
  have hfull : 0 ≤ f.total ↔ v.fs.Supplied i 65792 6 v.offset v.len := h.total_nonneg_iff hv rfl
  by_cases hs : v.fs.Supplied i 65792 6 v.offset v.len
  · -- the disk does not fill up
    have hcount := h.total_of_straight hst (hfull.2 hs) (by decide)
    rw [or_iff_left fun hnot => hnot.1 hs]
    constructor
    · rintro ⟨hle, hsame⟩
      refine ⟨by omega, fun h0 => ?_⟩
      have hbyte := hsame 6144
      rw [byteAt_of_pointer_eq_zero (s := v.fs) h0, byteAt_of_pointer
        (h.pointer_of_supplied hv (by decide) (hs.mono (by decide)))] at hbyte
      exact Option.some_ne_none _ hbyte
    · rintro ⟨hlen, h0⟩
      refine ⟨by omega, fun y => ?_⟩
      obtain ⟨p, base, w, hp, ⟨-, rfl⟩ | ⟨hend, -⟩⟩ := h.first_pass h0
      · by_cases hy : y / 1024 = 6
        · have hnone : fillCount v.len (v.offset % 1024) = 0 := by
            rw [hlen, fillCount, if_neg (by omega)]
          exact hp.byteAt_of_lt_start h0 hy (by omega)
        · exact hp.byteAt_of_ne hv.blocks hy
      · exact absurd (by rw [hp.len, hlen, Nat.zero_sub]) hend
  · have hneg : f.total < 0 := not_le.1 (mt hfull.1 hs)
    have hempty : ¬ (v.len = 0 ∧ v.fs.pointer i (dataSlot 6) ≠ 0) := by
      rintro ⟨hlen, h0⟩
      obtain ⟨p, base, w, hp, ⟨-, rfl⟩ | ⟨hend, -⟩⟩ := h.first_pass h0
      · exact absurd hneg (not_lt.2 (Int.natCast_nonneg _))
      · exact absurd (by rw [hp.len, hlen, Nat.zero_sub]) hend
    rw [or_iff_right hempty, and_iff_right hs]
    constructor
    · rintro ⟨-, hsame⟩ y hle hlt hsy
      rw [← hsame]
      exact h.byteAt_of_supplied (n := y / 1024 - 6) hv hst (by omega) (by omega) (by
        rwa [show y / 1024 - 6 + 1 = y / 1024 - 5 by omega]) (Or.inr hneg)
    · refine fun hold => ⟨hneg.le, fun y => ?_⟩
      by_cases hy : y / 1024 < 6
      · exact h.byteAt_of_lt hv hy
      by_cases hlt : y / 1024 < 65798
      · have hnum : y / 1024 - 6 + 1 = y / 1024 - 5 := by omega
        by_cases hsy : v.fs.Supplied i (y / 1024 - 5) 6 v.offset v.len
        · rw [hold y (by omega) (by omega) hsy]
          exact h.byteAt_of_supplied (n := y / 1024 - 6) hv hst (by omega) hlt (by rwa [hnum])
            (Or.inr hneg)
        · exact h.byteAt_of_not_supplied (n := y / 1024 - 6) hv (by omega) hlt (by rwa [hnum])
      · rw [byteAt_of_pointer_eq_zero (not_not.1 (mt lt_of_pointer_dataSlot hlt)),
          byteAt_of_pointer_eq_zero (not_not.1 (mt lt_of_pointer_dataSlot hlt))]

/-! ## The whole of a write -/

/-- The condition on a write below the limit: the block that it starts in is there, if it does not
start at its beginning, or is not taken; and if it goes past the limit, it comes to a full disk or
makes one pass at most that starts within a block. -/
def StartsWithin (s : FS g) (i len offset : ℕ) : Prop :=
  (offset % 1024 = 0 ∨ s.pointer i (dataSlot (offset / 1024)) ≠ 0 ∨
      ¬ s.Supplied i 1 (offset / 1024) offset len) ∧
    (65798 * 1024 < offset + len → ¬ s.Enough i offset len ∨ offset % 1024 = 0 ∨
      s.LoneStart i (offset / 1024))

/-- The condition on a write past it: it has nothing to write, or comes to a full disk when all
that it has written was there before. -/
def StartsOver (s : FS g) (i : ℕ) (buf : ℕ → UInt8) (len offset : ℕ) : Prop :=
  (len = 0 ∧ s.pointer i (dataSlot 6) ≠ 0) ∨ (¬ s.Enough i offset len ∧
    ∀ y, 6144 ≤ y → y < 65798 * 1024 → s.Supplied i (y / 1024 - 5) 6 0 len →
      s.byteAt i y = some (buf (y - 6144)))

/-- **The largest file.**  A write stays where it belongs exactly under these conditions, if it
takes no level-1 block with leftovers. -/
theorem respectsLimit_iff (hs : s.SoundBlocks) (hi : s.inodeMap i = true)
    (hr : s.resolve 1 path.tokens = .inr i) (hf : s.isDir i = false) (hsafe : s.TableSafe i offset len)
    (ho : (offset : ℤ) ≤ (s.inodes i).size.toInt) (hw : s.fsWrite c path buf len offset = .ok (r, t)) :
    RespectsLimit i buf len offset r s t ↔
      if offset < 65798 * 1024 then s.StartsWithin i len offset else s.StartsOver i buf len offset := by
  rcases writes_of_fsWrite hs hi hr hf hw (fun _ => hsafe) with ⟨hnot, -⟩ | ⟨-, f, rfl, hwrites, hintact, -⟩
  · omega
  have hv := hs.ready_writeVars hi hf buf len offset
  have henough : 0 ≤ f.total ↔ s.Enough i offset len :=
    hwrites.total_nonneg_iff hv (Nat.sub_add_cancel (firstSlot_lt offset).le)
  by_cases hlt : offset / 1024 < 65798
  · have hoffset : (s.writeVars i buf len offset).offset = offset := if_pos hlt
    have hone : s.Enough i offset len → s.Supplied i 1 (offset / 1024) offset len := by
      unfold Enough firstSlot firstOffset
      rw [if_pos hlt, if_pos hlt]
      exact fun h => h.mono (by omega)
    rw [firstSlot, if_pos hlt] at hwrites
    have hbelow := hwrites.below_iff hv hlt (by rw [hoffset])
    have hacross := hwrites.across_iff hv hlt (by rw [hoffset])
    rw [hoffset] at hbelow hacross
    rw [if_pos (by omega)]
    -- a write that does not come to a full disk takes its first block
    have hfirst : 0 ≤ f.total → (offset % 1024 = 0 ∨ s.pointer i (dataSlot (offset / 1024)) ≠ 0 ∨
        ¬ s.Supplied i 1 (offset / 1024) offset len) →
        offset % 1024 = 0 ∨ s.pointer i (dataSlot (offset / 1024)) ≠ 0 :=
      fun h0 hstart => hstart.imp_right fun h => h.resolve_right fun hnot => hnot (hone (henough.1 h0))
    constructor
    · intro h
      have hstart := hbelow.1 fun y hy => (hintact.byteAt y).symm.trans (h.below y hy)
      refine ⟨hstart, fun hlen => or_iff_not_imp_left.2 fun hen => ?_⟩
      have h0 := henough.2 (not_not.1 hen)
      obtain ⟨htotal, hbytes⟩ := h.across (by omega) hlen h0
      exact (hacross (hfirst h0 hstart) hlen h0).1 ⟨htotal.trans (Int.zero_add _).symm,
        fun y hle hy => (hintact.byteAt y).symm.trans (hbytes y hle hy)⟩
    · rintro ⟨hstart, hcross⟩
      refine ⟨fun y hy => (hintact.byteAt y).trans (hbelow.2 hstart y hy), fun h => by omega,
        fun _ hlen h0 => ?_⟩
      obtain ⟨htotal, hbytes⟩ := (hacross (hfirst h0 hstart) hlen h0).2
        ((hcross hlen).resolve_left (not_not.2 (henough.1 h0)))
      exact ⟨htotal.trans (Int.zero_add _), fun y hle hy => (hintact.byteAt y).trans (hbytes y hle hy)⟩
  · have hoffset : (s.writeVars i buf len offset).offset = 0 := if_neg hlt
    rw [firstSlot, if_neg hlt] at hwrites
    have hbeyond := hwrites.beyond_iff hv hoffset rfl
    rw [hoffset] at hbeyond
    have hover : s.Enough i offset len ↔ s.Supplied i 65792 6 0 len := by
      unfold Enough firstSlot firstOffset
      rw [if_neg hlt, if_neg hlt]
    rw [if_neg (by omega), StartsOver, hover]
    refine Iff.trans ?_ hbeyond
    constructor
    · intro h
      obtain ⟨hle, hbytes⟩ := h.beyond (by omega)
      exact ⟨hle, fun y => (hintact.byteAt y).symm.trans (hbytes y)⟩
    · rintro ⟨hle, hsame⟩
      have hbytes : ∀ y, t.byteAt i y = s.byteAt i y := fun y => (hintact.byteAt y).trans (hsame y)
      exact ⟨fun y _ => hbytes y, fun _ => ⟨hle, hbytes⟩, fun h => by omega⟩

end FS

/-! ## A file that has all it can have -/

/-- The place of a slot among the 66056 that such a file uses. -/
def Slot.placeAll : Slot → Option ℕ
  | direct k => if k < 6 then some k else none
  | level1 k => if k < 256 then some (6 + k) else none
  | inner j k => if j < 256 ∧ k < 256 then some (262 + 256 * j + k) else none
  | indir1 => some 65798
  | indir2 => some 65799
  | outer j => if j < 256 then some (65800 + j) else none

theorem Slot.placeAll_lt {σ : Slot} {m : ℕ} (h : σ.placeAll = some m) : m < 66056 := by
  cases σ <;> simp only [placeAll, Option.ite_none_right_eq_some, Option.some.injEq] at h <;> omega

theorem Slot.placeAll_injective {σ τ : Slot} {m : ℕ} (hσ : σ.placeAll = some m)
    (hτ : τ.placeAll = some m) : σ = τ := by
  cases σ <;> cases τ <;>
    simp only [placeAll, Option.ite_none_right_eq_some, Option.some.injEq, direct.injEq, level1.injEq,
      outer.injEq, inner.injEq, reduceCtorEq] at hσ hτ ⊢ <;> omega

theorem placeAll_dataSlot {y : ℕ} (hy : y < 65798) : (dataSlot y).placeAll = some y := by
  unfold dataSlot Slot.placeAll
  split_ifs with h6 h262
  · dsimp only
    rw [if_pos h6]
  · dsimp only
    rw [if_pos (by omega)]
    exact congrArg some (by omega)
  · dsimp only
    rw [if_pos (by omega)]
    exact congrArg some (by omega)

namespace FS

variable {g : Layout} {s t : FS g} {c : Context} {path : Path} {i b x : ℕ} {r : ℤ}

/-- The file `i` is given the 66056 blocks from `b` on: those for data, `indir_1`, `indir_2` and
the level-1 blocks. -/
def withAll (s : FS g) (i b : ℕ) : FS g :=
  { s with
    inodes := update s.inodes i { s.inodes i with
      size := 67377152, direct := fun k => UInt32.ofNat (b + k), indir1 := UInt32.ofNat (b + 65798),
      indir2 := UInt32.ofNat (b + 65799) }
    blockMap := fun x => s.blockMap x || decide (b ≤ x ∧ x < b + 66056)
    disk := fun x =>
      if x = b + 65798 then Block.ofWords fun k => UInt32.ofNat (b + (6 + k))
      else if x = b + 65799 then Block.ofWords fun k => UInt32.ofNat (b + (65800 + k))
      else if b + 65800 ≤ x ∧ x < b + 66056 then
        Block.ofWords fun k => UInt32.ofNat (b + (262 + 256 * (x - (b + 65800)) + k))
      else s.disk x }

theorem disk_withAll (x : ℕ) : (s.withAll i b).disk x =
    if x = b + 65798 then Block.ofWords fun k => UInt32.ofNat (b + (6 + k))
    else if x = b + 65799 then Block.ofWords fun k => UInt32.ofNat (b + (65800 + k))
    else if b + 65800 ≤ x ∧ x < b + 66056 then
      Block.ofWords fun k => UInt32.ofNat (b + (262 + 256 * (x - (b + 65800)) + k))
    else s.disk x := rfl

theorem isDir_withAll (k : ℕ) : (s.withAll i b).isDir k = s.isDir k :=
  field_update (fun ino => sIsDir ino.mode) (by rfl) k

section WithAll

variable (hs : s.SoundBlocks) (hfree : ∀ m < 66056, s.Free (b + m))
include hs hfree

theorem toNat_withAll {m : ℕ} (hm : m < 66056) : (UInt32.ofNat (b + m)).toNat = b + m :=
  toNat_ofNat_of_lt hs.numBlocks_lt (hfree m hm).2.1

theorem ne_zero_withAll {m : ℕ} (hm : m < 66056) : UInt32.ofNat (b + m) ≠ 0 := by
  refine ne_zero_of_startBlock_le (g := g) ?_
  rw [toNat_withAll hs hfree hm]
  exact (hfree m hm).1

/-- A word of one of the blocks of pointers. -/
theorem tableWord_withAll {m k : ℕ} {w : ℕ → UInt32} (hm : m < 66056) (hk : k < 256)
    (hdisk : (s.withAll i b).disk (b + m) = Block.ofWords w) :
    tableWord (s.withAll i b).disk (UInt32.ofNat (b + m)) k = w k := by
  rw [tableWord_of_ne_zero (ne_zero_withAll hs hfree hm), toNat_withAll hs hfree hm, hdisk,
    Block.word_ofWords _ hk]

/-- What the slots of the file hold. -/
theorem pointer_withAll (σ : Slot) : (s.withAll i b).pointer i σ =
    match σ.placeAll with
    | some m => UInt32.ofNat (b + m)
    | none => 0 := by
  have hino : (s.withAll i b).inodes i = { s.inodes i with
      size := 67377152, direct := fun k => UInt32.ofNat (b + k), indir1 := UInt32.ofNat (b + 65798),
      indir2 := UInt32.ofNat (b + 65799) } := update_self ..
  have hone : (s.withAll i b).disk (b + 65798) = Block.ofWords fun k => UInt32.ofNat (b + (6 + k)) := by
    rw [disk_withAll, if_pos rfl]
  have htwo : (s.withAll i b).disk (b + 65799) = Block.ofWords fun k => UInt32.ofNat (b + (65800 + k)) := by
    rw [disk_withAll, if_neg (by omega), if_pos rfl]
  have hlevel : ∀ j < 256, (s.withAll i b).disk (b + (65800 + j)) =
      Block.ofWords fun k => UInt32.ofNat (b + (262 + 256 * j + k)) := by
    intro j hj
    have hpast : b + (65800 + j) - (b + 65800) = j := by omega
    rw [disk_withAll, if_neg (by omega), if_neg (by omega), if_pos (by omega), hpast]
  unfold FS.pointer Slot.placeAll
  rw [hino]
  cases σ with
  | direct k =>
    show (if h : k < 6 then UInt32.ofNat (b + k) else 0) = _
    dsimp only
    split_ifs <;> rfl
  | indir1 => rfl
  | level1 k =>
    show tableWord _ (UInt32.ofNat (b + 65798)) k = _
    dsimp only
    split_ifs with hk
    · exact tableWord_withAll hs hfree (by decide) hk hone
    · exact tableWord_of_le _ _ (not_lt.1 hk)
  | indir2 => rfl
  | outer j =>
    show tableWord _ (UInt32.ofNat (b + 65799)) j = _
    dsimp only
    split_ifs with hj
    · exact tableWord_withAll hs hfree (by decide) hj htwo
    · exact tableWord_of_le _ _ (not_lt.1 hj)
  | inner j k =>
    show tableWord _ (tableWord _ (UInt32.ofNat (b + 65799)) j) k = _
    dsimp only
    split_ifs with hjk
    · obtain ⟨hj, hk⟩ := hjk
      rw [tableWord_withAll hs hfree (by decide) hj htwo,
        tableWord_withAll hs hfree (by omega) hk (hlevel j hj)]
    · by_cases hj : j < 256
      · exact tableWord_of_le _ _ (by omega)
      · rw [tableWord_of_le _ _ (not_lt.1 hj), tableWord_zero]

theorem mapped_withAll {y : ℕ} (hy : y < 65798) : (s.withAll i b).pointer i (dataSlot y) ≠ 0 := by
  rw [pointer_withAll hs hfree, placeAll_dataSlot hy]
  exact ne_zero_withAll hs hfree (by omega)

theorem soundBlocks_withAll (hf : s.isDir i = false) : (s.withAll i b).SoundBlocks := by
  refine hs.given hf hfree (fun _ _ => Slot.placeAll_lt) (fun _ _ _ => Slot.placeAll_injective) rfl
    isDir_withAll (fun k hk => update_of_ne hk ..) (fun _ => rfl) (fun x hx => ?_) fun σ x hx => ?_
  · have hne : ∀ m < 66056, x ≠ b + m := by
      rintro m hm rfl
      exact (hfree m hm).not_inUse hx
    have hpast : ¬ (b + 65800 ≤ x ∧ x < b + 66056) := fun h => hne (x - b) (by omega) (by omega)
    rw [disk_withAll, if_neg (hne _ (by decide)), if_neg (hne _ (by decide)), if_neg hpast]
  · obtain ⟨h0, rfl⟩ := (refers_of_file ((isDir_withAll i).trans hf)).1 hx
    have hp := pointer_withAll (i := i) hs hfree σ
    cases hm : σ.placeAll with
    | none =>
      rw [hm] at hp
      exact absurd hp h0
    | some m =>
      rw [hm] at hp
      exact ⟨m, rfl, by rw [hp, toNat_withAll hs hfree (Slot.placeAll_lt hm)]⟩

end WithAll

/-- Creating a file takes no block. -/
theorem MknodResult.blockMap {mode : UInt32} (h : MknodResult c s path mode r t)
    (hm : sIsDir mode = false) : t.blockMap = s.blockMap := by
  cases h with
  | badPath => rfl
  | «exists» => rfl
  | noInode => rfl
  | noSlot => rfl
  | noBlock => rfl
  | @created p j n last fresh t hp h =>
    have hnone : fresh = none := by
      refine Option.not_isSome_iff_eq_none.1 ?_
      rw [h.fresh_isSome, hm]
      exact Bool.false_ne_true
    funext x
    rw [h.blockMap, hnone]
    exact Bool.or_false _

/-- An image with room for such a file. -/
theorem formattable_70000 : Formattable 70000 := by decide

/-- The file `/a` of a new image, with the blocks from 2000 on. -/
theorem withAll_of_mknod {s : FS (layout formattable_70000)}
    (hmk : (fresh formattable_70000 0).fsMknod ⟨1000, 1000, 0⟩ pathA 0x81A4 = .ok (0, s))
    (hf : s.isDir 2 = false) : (s.withAll 2 2000).SoundBlocks ∧
      ∀ y < 65798, (s.withAll 2 2000).pointer 2 (dataSlot y) ≠ 0 := by
  have hwf := wf_fresh formattable_70000 0
  have hresult := fsMknod_ok hwf hmk
  have hblocks := (hresult.wf hwf).blocks
  have hfree : ∀ m < 66056, s.Free (2000 + m) := by
    intro m hm
    refine ⟨le_trans (by decide +kernel) (Nat.le_add_right 2000 m), ?_, ?_⟩
    · show 2000 + m < 70000
      omega
    · rw [hresult.blockMap (by decide)]
      show decide (2000 + m ≤ rootdirBase 70000) = false
      have hroot : rootdirBase 70000 < 2000 := by decide
      exact decide_eq_false (by omega)
  exact ⟨soundBlocks_withAll hblocks hfree hf, fun y => mapped_withAll hblocks hfree⟩

/-- 2000 bytes written to the last block of such a file: 1024 of them are. -/
theorem respectsLimit_across : ∃ s t, (fresh formattable_70000 0).fsMknod ⟨1000, 1000, 0⟩ pathA 0x81A4 =
    .ok (0, s) ∧ (s.withAll 2 2000).fsWrite ⟨1000, 1000, 0⟩ pathA UInt8.ofNat 2000 67376128 =
      .ok (1024, t) ∧ RespectsLimit 2 UInt8.ofNat 2000 67376128 1024 (s.withAll 2 2000) t := by
  have hend : (match (fresh formattable_70000 0).fsMknod ⟨1000, 1000, 0⟩ pathA 0x81A4 with
      | .ok (r, s) => r == 0 && s.inodeMap 2 && !s.isDir 2 &&
          decide ((s.withAll 2 2000).resolve 1 pathA.tokens = .inr 2) &&
          decide ((s.withAll 2 2000).TableSafe 2 67376128 2000) &&
          returned ((s.withAll 2 2000).fsWrite ⟨1000, 1000, 0⟩ pathA UInt8.ofNat 2000 67376128) ==
            some 1024
      | .error _ => false) = true := by
    decide +kernel
  split at hend
  · next r s hmk =>
    simp only [Bool.and_eq_true, Bool.not_eq_true', beq_iff_eq, decide_eq_true_eq] at hend
    obtain ⟨⟨⟨⟨⟨rfl, hi⟩, hf⟩, hr⟩, hsafe⟩, hret⟩ := hend
    obtain ⟨hs, -⟩ := withAll_of_mknod hmk hf
    obtain ⟨t, ht⟩ := exists_of_returned hret
    have hsize : ((s.withAll 2 2000).inodes 2).size.toInt = 67377152 := rfl
    refine ⟨s, t, hmk, ht, (respectsLimit_iff hs hi hr ((isDir_withAll 2).trans hf) hsafe
      (by rw [hsize]; decide) ht).2 ?_⟩
    rw [if_pos (by decide)]
    exact ⟨Or.inl rfl, fun _ => Or.inr (Or.inl rfl)⟩
  · exact absurd hend Bool.false_ne_true

/-- A byte written at the end of such a file is counted; it goes to byte 6144. -/
theorem not_respectsLimit : ¬ ∀ (g : Layout) (s t : FS g) (c : Context) (path : Path) (i : ℕ)
    (buf : ℕ → UInt8) (len offset : ℕ) (r : ℤ), g.startBlock + 66056 ≤ g.maxNumBlocks → s.SoundBlocks →
      s.inodeMap i = true → s.resolve 1 path.tokens = .inr i → sIsReg (s.inodes i).mode = true →
      (∀ y : ℕ, (1024 * y : ℕ) < (s.inodes i).size.toInt → s.pointer i (dataSlot y) ≠ 0) →
      (offset : ℤ) ≤ (s.inodes i).size.toInt → s.fsWrite c path buf len offset = .ok (r, t) →
        RespectsLimit i buf len offset r s t := by
  intro hall
  have hend : (match (fresh formattable_70000 0).fsMknod ⟨1000, 1000, 0⟩ pathA 0x81A4 with
      | .ok (r, s) => r == 0 && s.inodeMap 2 && !s.isDir 2 && sIsReg (s.inodes 2).mode &&
          decide ((s.withAll 2 2000).resolve 1 pathA.tokens = .inr 2) &&
          returned ((s.withAll 2 2000).fsWrite ⟨1000, 1000, 0⟩ pathA (fun _ => 1) 1 67377152) == some 1
      | .error _ => false) = true := by
    decide +kernel
  split at hend
  · next r s hmk =>
    simp only [Bool.and_eq_true, Bool.not_eq_true', beq_iff_eq, decide_eq_true_eq] at hend
    obtain ⟨⟨⟨⟨⟨rfl, hi⟩, hf⟩, hreg⟩, hr⟩, hret⟩ := hend
    obtain ⟨hs, hmap⟩ := withAll_of_mknod hmk hf
    obtain ⟨t, ht⟩ := exists_of_returned hret
    have hsize : ((s.withAll 2 2000).inodes 2).size.toInt = 67377152 := rfl
    have hlimit := hall _ (s.withAll 2 2000) t _ pathA 2 _ 1 67377152 1 (by decide) hs hi hr hreg
      (fun y hy => hmap y (by omega)) (by rw [hsize]; decide) ht
    exact absurd (hlimit.beyond (by decide)).1 (by decide)
  · exact absurd hend Bool.false_ne_true

end FS

end Fsx600
