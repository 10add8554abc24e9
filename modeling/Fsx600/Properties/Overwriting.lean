import Fsx600.Spec.DiskFull
import Fsx600.Properties.Allocation

/-!
# Overwriting a file

In a block that exists `fs_write` starts at `offset % 1024`, and it does so in every pass:
`offset` is set to zero after a pass that started at the beginning of a block, and where a
loop is left, but not after a first pass that started in the middle of one.  So a range that
starts in the middle of a block and goes on in the same region is written with a gap at the
start of each block.  `source` says which byte of the buffer comes where.

* `Writes.shifted`: what an overwrite leaves in the file, by induction over the passes;
* `overwritten_iff`: which overwrites put every byte where it belongs;
* `not_overwritten`: one of 1000 bytes at byte 500 does not.
-/

namespace Fsx600

open Function GuardedRun Mkfs

/-! ## Which byte comes where -/

/-- The data slot after the last one of the loop that fills data slot `x`. -/
def regionEnd (x : ℕ) : ℕ := if x < 6 then 6 else if x < 262 then 262 else 65798

/-- Which byte of the buffer comes to byte `y` of the file, if the blocks exist and data slot `x`
is the first, to be filled from byte `start` on: every other one is filled from there on as well,
up to the end of the loop. -/
def source (x start y : ℕ) : Option ℕ :=
  if y / 1024 < x then none
  else if regionEnd x ≤ y / 1024 then
    some ((regionEnd x - x) * (1024 - start) + (y - 1024 * regionEnd x))
  else if y % 1024 < start then none
  else some ((y / 1024 - x) * (1024 - start) + (y % 1024 - start))

/-- The contents `old` with `len` bytes of the buffer put where they come to. -/
def shifted (old : ℕ → Option UInt8) (buf : ℕ → UInt8) (len x start y : ℕ) : Option UInt8 :=
  match source x start y with
  | none => old y
  | some j => if j < len then some (buf j) else old y

/-- The contents `old` with `len` bytes of the buffer put where they belong. -/
def overlaid (old : ℕ → Option UInt8) (buf : ℕ → UInt8) (len offset y : ℕ) : Option UInt8 :=
  if offset ≤ y ∧ y < offset + len then some (buf (y - offset)) else old y

/-- The range starts at the beginning of a block, or lies in one block, or its first block is
the last one of a loop. -/
def Aligned (offset len : ℕ) : Prop :=
  offset % 1024 = 0 ∨ offset % 1024 + len ≤ 1024 ∨ offset / 1024 = 5 ∨ offset / 1024 = 261

section Source

variable {x start y len : ℕ}

theorem source_of_lt (h : y / 1024 < x) : source x start y = none := if_pos h

theorem lt_regionEnd (hx : x < 65798) : x < regionEnd x := by
  unfold regionEnd
  split_ifs <;> omega

theorem source_self (hx : y / 1024 = x) (hlt : x < 65798) :
    source x start y = if y % 1024 < start then none else some (y % 1024 - start) := by
  subst hx
  unfold source
  rw [if_neg (lt_irrefl _), if_neg (not_le.2 (lt_regionEnd hlt)), Nat.sub_self, Nat.zero_mul, Nat.zero_add]

/-- After the first block. -/
theorem source_of_gt (hy : x < y / 1024) (hlt : y / 1024 < 65798) :
    source x start y =
      (source (x + 1) (if x + 1 = 6 ∨ x + 1 = 262 then 0 else start) y).map (1024 - start + ·) := by
  unfold source
  rw [if_neg (by omega), if_neg (by omega : ¬ y / 1024 < x + 1)]
  by_cases hend : x + 1 = regionEnd x
  · have hx : x + 1 = 6 ∨ x + 1 = 262 := by
      unfold regionEnd at hend
      split_ifs at hend <;> omega
    have hnext : x + 1 < regionEnd (x + 1) := lt_regionEnd (by omega)
    rw [if_pos hx, if_pos (by omega), ← hend, Nat.add_sub_cancel_left, Nat.one_mul]
    split_ifs with hle
    · have hge := Nat.mul_le_mul_left 1024 hle
      have hcut : (regionEnd (x + 1) - (x + 1)) * (1024 - 0) + (y - 1024 * regionEnd (x + 1)) =
          y - 1024 * (x + 1) := by
        omega
      rw [hcut]
      rfl
    · omega
    · have hcut : (y / 1024 - (x + 1)) * (1024 - 0) + (y % 1024 - 0) = y - 1024 * (x + 1) := by
        omega
      rw [hcut]
      rfl
  · have hx : ¬ (x + 1 = 6 ∨ x + 1 = 262) := by
      unfold regionEnd at hend
      split_ifs at hend <;> omega
    have hsame : regionEnd (x + 1) = regionEnd x := by
      unfold regionEnd at hend ⊢
      split_ifs at hend ⊢ <;> omega
    have hgt : x < regionEnd x := lt_regionEnd (by omega)
    rw [if_neg hx, hsame]
    split_ifs with hle
    · have hcut : regionEnd x - x = regionEnd x - (x + 1) + 1 := by omega
      rw [hcut, Nat.add_one_mul, Option.map_some]
      congr 1
      omega
    · rfl
    · have hcut : y / 1024 - x = y / 1024 - (x + 1) + 1 := by omega
      rw [hcut, Nat.add_one_mul, Option.map_some]
      congr 1
      omega

variable {old : ℕ → Option UInt8} {buf : ℕ → UInt8}

theorem shifted_of_lt (h : y / 1024 < x) : shifted old buf len x start y = old y := by
  unfold shifted
  rw [source_of_lt h]

theorem shifted_self (hx : y / 1024 = x) (hlt : x < 65798) :
    shifted old buf len x start y =
      if start ≤ y % 1024 ∧ y % 1024 < start + len then some (buf (y % 1024 - start)) else old y := by
  unfold shifted
  rw [source_self hx hlt]
  by_cases h : y % 1024 < start
  · rw [if_pos h, if_neg (by omega)]
  · rw [if_neg h]
    exact if_congr (by omega) rfl rfl

/-- The first block takes what comes before all the others. -/
theorem shifted_of_gt (hy : x < y / 1024) (hlt : y / 1024 < 65798) :
    shifted old buf len x start y = shifted old (fun k => buf (1024 - start + k)) (len - (1024 - start))
      (x + 1) (if x + 1 = 6 ∨ x + 1 = 262 then 0 else start) y := by
  unfold shifted
  rw [source_of_gt hy hlt]
  cases source (x + 1) (if x + 1 = 6 ∨ x + 1 = 262 then 0 else start) y with
  | none => rfl
  | some j =>
    refine if_congr ?_ rfl rfl
    show 1024 - start + j < len ↔ j < len - (1024 - start)
    omega

/-- If every block is filled from its beginning on, the bytes come where they belong. -/
theorem shifted_zero (hlt : y / 1024 < 65798) :
    shifted old buf len x 0 y = overlaid old buf len (1024 * x) y := by
  rcases lt_or_ge (y / 1024) x with hy | hy
  · rw [shifted_of_lt hy, overlaid, if_neg (by omega)]
  · have hend : x < regionEnd x := lt_regionEnd (by omega)
    have hsource : source x 0 y = some (y - 1024 * x) := by
      unfold source
      split_ifs with h1 h2 h3
      · omega
      · congr 1
        omega
      · omega
      · congr 1
        omega
    unfold shifted overlaid
    rw [hsource]
    exact if_congr (by omega) rfl rfl

theorem shifted_congr {old' : ℕ → Option UInt8} (h : old y = old' y) :
    shifted old buf len x start y = shifted old' buf len x start y := by
  unfold shifted
  rw [h]

theorem shifted_len_zero : shifted old buf 0 x start y = old y := by
  unfold shifted
  cases source x start y with
  | none => rfl
  | some j => exact if_neg (Nat.not_lt_zero j)

/-- An aligned range comes where it belongs. -/
theorem shifted_of_aligned {offset : ℕ} (h : Aligned offset len) (hlt : y / 1024 < 65798) :
    shifted old buf len (offset / 1024) (offset % 1024) y = overlaid old buf len offset y := by
  by_cases h0 : offset % 1024 = 0
  · rw [h0, shifted_zero hlt, show 1024 * (offset / 1024) = offset by omega]
  rcases lt_trichotomy (y / 1024) (offset / 1024) with hy | hy | hy
  · rw [shifted_of_lt hy, overlaid, if_neg (by omega)]
  · rw [shifted_self hy (by omega)]
    have hsame : y % 1024 - offset % 1024 = y - offset := by omega
    rw [hsame]
    exact if_congr (by omega) rfl rfl
  · rw [shifted_of_gt hy hlt]
    by_cases hone : offset % 1024 + len ≤ 1024
    · rw [show len - (1024 - offset % 1024) = 0 by omega, shifted_len_zero, overlaid, if_neg (by omega)]
    · have hlast : offset / 1024 + 1 = 6 ∨ offset / 1024 + 1 = 262 := by
        unfold Aligned at h
        omega
      rw [if_pos hlast, shifted_zero hlt]
      unfold overlaid
      refine ite_congr (propext (by omega)) (fun hin => ?_) fun _ => rfl
      have hsame : 1024 - offset % 1024 + (y - 1024 * (offset / 1024 + 1)) = y - offset := by omega
      exact congrArg (fun k => some (buf k)) hsame

end Source

namespace FS

variable {g : Layout} {s t : FS g} {c : Context} {path : Path} {buf : ℕ → UInt8}
  {inum stop i x y n m len offset start : ℕ} {p : UInt32} {base : Block} {v w : WriteVars g} {f : Flow g}
  {L : Block → ℕ → Prop}

/-! ## The blocks that exist -/

/-- Where all slots have blocks, none are taken. -/
theorem taken_eq_nil {empty : Slot → Bool} (hlen : 0 < len)
    (hfull : ∀ y, 1024 * y < m → ∀ σ ∈ way y, empty σ = false)
    (hend : 1024 * x + offset % 1024 + len ≤ m)
    (h : offset % 1024 = 0 ∨ offset % 1024 + len ≤ 1024 ∨ x + 1 = 6 ∨ x + 1 = 262) :
    taken empty n x offset len = [] := by
  induction n generalizing x offset len empty with
  | zero => rfl
  | succ n ih =>
    have hx := hfull x (by omega)
    have hstart : (if empty (dataSlot x) then 0 else offset % 1024) = offset % 1024 :=
      if_neg (by simp [hx _ (dataSlot_mem_way x)])
    have hway : (way x).filter empty = [] := List.filter_eq_nil_iff.2 fun σ hσ => by simp [hx σ hσ]
    rw [taken, hstart, hway, List.nil_append]
    split_ifs with hlast hzero
    · rfl
    · exact ih (by omega) (fun y hy σ hσ => by simp [hfull y hy σ hσ]) (by omega) (by omega)
    · exact ih (by omega) (fun y hy σ hσ => by simp [hfull y hy σ hσ]) (by omega) (by omega)

theorem way_ne_zero (h : s.pointer i (dataSlot x) ≠ 0) : ∀ σ ∈ way x, s.pointer i σ ≠ 0 := by
  intro σ hσ
  rcases List.mem_append.1 hσ with hσ | hσ
  · exact pointer_tables_ne_zero h σ hσ
  · exact List.mem_singleton.1 hσ ▸ h

/-! ## The passes -/

/-- What a pass does to a byte of the file. -/
theorem Pass.byteAt (hp : Pass inum x p base start v w) (hs : v.fs.SoundBlocks)
    (hy : v.fs.pointer inum (dataSlot (y / 1024)) ≠ 0) :
    w.fs.byteAt inum y =
      if y / 1024 = x ∧ start ≤ y % 1024 ∧ y % 1024 < start + fillCount v.len start then
        some (v.buf (y % 1024 - start))
      else v.fs.byteAt inum y := by
  by_cases hyx : y / 1024 = x
  · by_cases hin : start ≤ y % 1024 ∧ y % 1024 < start + fillCount v.len start
    · rw [if_pos ⟨hyx, hin⟩]
      exact hp.byteAt_filled hyx hin.1 hin.2
    · rw [if_neg fun h => hin h.2]
      exact hp.byteAt_of_lt_start (hyx ▸ hy) hyx (by omega)
  · rw [if_neg fun h => hyx h.1]
    exact hp.byteAt_of_ne hs hyx

/-- Where the next pass starts in its block. -/
theorem Pass.next_offset (hp : Pass inum x p base start v w) (hstart : start = v.offset % 1024) :
    (resume (x + 1) w).offset % 1024 = if x + 1 = 6 ∨ x + 1 = 262 then 0 else start := by
  rw [hp.resume_offset]
  split_ifs <;> omega

/-- **What an overwrite leaves.**  The bytes below `m`, all of which are in blocks that exist,
are where the passes put them. -/
theorem Writes.byteAt_eq_shifted (h : Writes NoLeftovers inum stop x v f) (hv : Ready inum v)
    (hstop : 65798 ≤ stop) (hmap : ∀ y, 1024 * y < m → v.fs.pointer inum (dataSlot y) ≠ 0)
    (hy : y < m) :
    f.state.byteAt inum y = shifted (v.fs.byteAt inum) v.buf v.len x (v.offset % 1024) y := by
  have hlt : y / 1024 < 65798 := lt_of_pointer_dataSlot (hmap (y / 1024) (by omega))
  induction h with
  | @table x σ p v w f hσ ht _ _ ih =>
    have hsame := ht.pointer_dataSlot hσ
    rw [ih ht.ready (fun y hy => by rw [hsame]; exact hmap y hy), ht.len, ht.buf, ht.offset]
    exact shifted_congr (ht.byteAt hv.blocks hσ y)
  | @full x σ v _ hσ hzero hfull =>
    by_cases hyx : y / 1024 < x
    · exact (shifted_of_lt hyx).symm
    · -- the blocks that are there need not be taken
      have hway : σ ∈ way x := List.mem_append.2 (hσ.imp_right List.mem_singleton.2)
      exact absurd hzero (way_ne_zero (hmap x (by omega)) σ hway)
  | dirty _ _ _ _ _ _ hL => exact hL.elim
  | @last x p base start v w hp hlen =>
    have hbyte := hp.byteAt hv.blocks (hmap (y / 1024) (by omega))
    obtain ⟨hall, hroom⟩ := hp.fill_last hlen
    rw [hall] at hbyte
    refine hbyte.trans ?_
    rcases lt_trichotomy (y / 1024) x with hyx | hyx | hyx
    · rw [shifted_of_lt hyx, if_neg fun h => hyx.ne h.1]
    · have hstart := hp.start_eq (hmap x (by omega))
      rw [shifted_self hyx (by omega), ← hstart]
      exact if_congr (and_iff_right hyx) rfl rfl
    · have hstart := hp.start_eq (hmap x (by omega))
      rw [shifted_of_gt hyx hlt, if_neg fun h => hyx.ne' h.1, ← hstart,
        show v.len - (1024 - start) = 0 by omega, shifted_len_zero]
  | @pass x p base start v w f hp hlen _ ih =>
    have hbyte := hp.byteAt hv.blocks (hmap (y / 1024) (by omega))
    obtain ⟨hall, hroom⟩ := hp.fill_pass hlen
    have hmap' : ∀ y, 1024 * y < m → w.fs.pointer inum (dataSlot y) ≠ 0 := fun z hz =>
      hp.stored.pointer_ne_zero (hmap z hz)
    rw [ih (hp.ready.resume _) (by rwa [resume_fs]), resume_fs, resume_len, resume_buf]
    rcases lt_trichotomy (y / 1024) x with hyx | hyx | hyx
    · rw [shifted_of_lt (by omega), shifted_of_lt hyx, hbyte, if_neg fun h => hyx.ne h.1]
    · have hstart := hp.start_eq (hmap x (by omega))
      rw [shifted_of_lt (by omega), shifted_self hyx (by omega), hbyte, ← hstart, hall]
      exact if_congr (by omega) rfl rfl
    · have hstart := hp.start_eq (hmap x (by omega))
      rw [hp.next_offset hstart, shifted_of_gt hyx hlt, ← hstart, hp.len, hp.buf, hall]
      refine shifted_congr ?_
      rw [hbyte, if_neg fun h => hyx.ne' h.1]
  | done => exact (shifted_of_lt (hlt.trans_le hstop)).symm

/-! ## Overwriting -/

/-- Every byte of the file is the one of the buffer that belongs there, or the old one. -/
def Overwritten (i : ℕ) (buf : ℕ → UInt8) (len offset : ℕ) (s t : FS g) : Prop :=
  ∀ y : ℕ, y < (s.inodes i).size.toInt → t.byteAt i y = overlaid (s.byteAt i) buf len offset y

/-- The bytes that come where they do not belong happen to be those that do. -/
def Coincides (s : FS g) (i : ℕ) (buf : ℕ → UInt8) (len offset : ℕ) : Prop :=
  ∀ y : ℕ, y < (s.inodes i).size.toInt →
    shifted (s.byteAt i) buf len (offset / 1024) (offset % 1024) y = overlaid (s.byteAt i) buf len offset y

section Overwrite

variable (hs : s.SoundBlocks) (hi : s.inodeMap i = true) (hr : s.resolve 1 path.tokens = .inr i)
  (hf : s.isDir i = false)
  (hmap : ∀ y : ℕ, (1024 * y : ℕ) < (s.inodes i).size.toInt → s.pointer i (dataSlot y) ≠ 0)
  (hlen : 0 < len) (hend : ((offset + len : ℕ) : ℤ) ≤ (s.inodes i).size.toInt)

include hmap hlen hend in
/-- An aligned overwrite takes no blocks. -/
theorem tableSafe_of_aligned (h : Aligned offset len) : s.TableSafe i offset len := by
  have hlt : offset / 1024 < 65798 := lt_of_pointer_dataSlot (hmap (offset / 1024) (by omega))
  have hnone : s.needs i (65798 - offset / 1024) (offset / 1024) offset len = [] := by
    refine taken_eq_nil (m := offset + len) hlen (fun y hy σ hσ => ?_) (by omega) ?_
    · simpa using way_ne_zero (hmap y (by omega)) σ hσ
    · unfold Aligned at h
      omega
  rw [tableSafe_iff hlt, hnone]
  exact fun y hy => absurd hy (by simp)

include hs hi hr hf hmap hlen hend

/-- What an overwrite leaves in the file, if it takes no level-1 block with leftovers in it. -/
theorem byteAt_of_fsWrite (hsafe : s.TableSafe i offset len)
    (hw : s.fsWrite c path buf len offset = .ok ((len : ℤ), t)) (hy : (y : ℤ) < (s.inodes i).size.toInt) :
    t.byteAt i y = shifted (s.byteAt i) buf len (offset / 1024) (offset % 1024) y := by
  have hlt : offset / 1024 < 65798 := lt_of_pointer_dataSlot (hmap (offset / 1024) (by omega))
  rcases writes_of_fsWrite hs hi hr hf hw (fun _ => hsafe) with ⟨hnot, -⟩ | ⟨-, f, -, hwrites, hintact, -⟩
  · omega
  have hv := hs.ready_writeVars hi hf buf len offset
  have hoffset : (s.writeVars i buf len offset).offset = offset := if_pos hlt
  have hbyte := hwrites.byteAt_eq_shifted hv le_rfl (m := (s.inodes i).size.toInt.toNat)
    (fun z hz => hmap z (by omega)) (show y < _ by omega)
  rw [firstSlot, if_pos hlt, hoffset] at hbyte
  exact (hintact.byteAt y).trans hbyte

/-- **Overwriting** puts every byte where it belongs if the range is aligned, and else if the
bytes happen to agree. -/
theorem overwritten_iff (hw : s.fsWrite c path buf len offset = .ok ((len : ℤ), t)) :
    (Aligned offset len → Overwritten i buf len offset s t) ∧
      (s.TableSafe i offset len →
        (Overwritten i buf len offset s t ↔ Aligned offset len ∨ s.Coincides i buf len offset)) := by
  have hcoincides : Aligned offset len → s.Coincides i buf len offset := by
    intro h y hy
    have hlt : y / 1024 < 65798 := lt_of_pointer_dataSlot (hmap (y / 1024) (by omega))
    exact shifted_of_aligned h hlt
  have hbyte : s.TableSafe i offset len →
      (Overwritten i buf len offset s t ↔ s.Coincides i buf len offset) := by
    intro hsafe
    refine forall₂_congr fun y hy => ?_
    rw [byteAt_of_fsWrite hs hi hr hf hmap hlen hend hsafe hw hy]
  refine ⟨fun h => (hbyte (tableSafe_of_aligned hmap hlen hend h)).2 (hcoincides h), fun hsafe => ?_⟩
  rw [hbyte hsafe]
  exact ⟨Or.inr, fun h => h.elim hcoincides id⟩

end Overwrite

/-- The first 1500 bytes of a file of 2000 are overwritten. -/
theorem overwritten_of_1500 : ∃ s t, (fresh formattable_256 0).guardedAll ⟨1000, 1000, 0⟩ FilesGuard
    [.mknod ⟨[47, 97], by decide⟩ 0x81A4, .write ⟨[47, 97], by decide⟩ (fun _ => 0) 2000 0] = some s ∧
      s.fsWrite ⟨1000, 1000, 0⟩ ⟨[47, 97], by decide⟩ UInt8.ofNat 1500 0 = .ok (1500, t) ∧
        Overwritten 2 UInt8.ofNat 1500 0 s t := by
  have hend : ((fresh formattable_256 0).guardedAll ⟨1000, 1000, 0⟩ FilesGuard
      [.mknod ⟨[47, 97], by decide⟩ 0x81A4,
        .write ⟨[47, 97], by decide⟩ (fun _ => 0) 2000 0]).any (fun s => s.inodeMap 2 && !s.isDir 2 &&
          (s.inodes 2).size == 2000 && decide (s.resolve 1 (Path.tokens ⟨[47, 97], by decide⟩) = .inr 2) &&
            ((List.range 2).all fun x => s.pointer 2 (dataSlot x) != 0) &&
              returned (s.fsWrite ⟨1000, 1000, 0⟩ ⟨[47, 97], by decide⟩ UInt8.ofNat 1500 0) ==
                some 1500) = true := by
    decide +kernel
  obtain ⟨s, hs, htest⟩ := (Option.any_eq_true _ _).mp hend
  simp only [Bool.and_eq_true, Bool.not_eq_true', beq_iff_eq, bne_iff_ne, decide_eq_true_eq,
    List.all_eq_true, List.mem_range] at htest
  obtain ⟨⟨⟨⟨⟨hi, hf⟩, hsize⟩, hr⟩, hmap⟩, hret⟩ := htest
  have hwf : Wf s := wf_of_run (run_of_guardedAll hs)
  have hint : (s.inodes 2).size.toInt = 2000 := by
    rw [hsize]
    rfl
  obtain ⟨t, ht⟩ := exists_of_returned hret
  exact ⟨s, t, hs, ht, (overwritten_iff hwf.blocks hi hr hf (fun y hy => hmap y (by omega)) (by decide)
    (by rw [hint]; decide) ht).1 (Or.inl rfl)⟩

/-- 1000 bytes written at byte 500 of a file of 2000 do not come to byte 1024. -/
theorem not_overwritten : ¬ ∀ (g : Layout) (s t : FS g) (c : Context) (path : Path) (i : ℕ)
    (buf : ℕ → UInt8) (len offset : ℕ), s.SoundBlocks → s.inodeMap i = true →
      s.resolve 1 path.tokens = .inr i → sIsReg (s.inodes i).mode = true →
      (∀ y : ℕ, (1024 * y : ℕ) < (s.inodes i).size.toInt → s.pointer i (dataSlot y) ≠ 0) →
      0 < len → ((offset + len : ℕ) : ℤ) ≤ (s.inodes i).size.toInt →
      s.fsWrite c path buf len offset = .ok ((len : ℤ), t) → Overwritten i buf len offset s t := by
  intro hall
  have hend : ((fresh formattable_256 0).guardedAll ⟨1000, 1000, 0⟩ FilesGuard
      [.mknod ⟨[47, 97], by decide⟩ 0x81A4,
        .write ⟨[47, 97], by decide⟩ (fun _ => 0) 2000 0]).any (fun s => s.inodeMap 2 && !s.isDir 2 &&
          sIsReg (s.inodes 2).mode && (s.inodes 2).size == 2000 &&
          decide (s.resolve 1 (Path.tokens ⟨[47, 97], by decide⟩) = .inr 2) &&
          ((List.range 2).all fun x => s.pointer 2 (dataSlot x) != 0) && s.byteAt 2 1024 == some 0 &&
          decide (s.TableSafe 2 500 1000) &&
          returned (s.fsWrite ⟨1000, 1000, 0⟩ ⟨[47, 97], by decide⟩ (fun _ => 1) 1000 500) ==
            some 1000) = true := by
    decide +kernel
  obtain ⟨s, hs, htest⟩ := (Option.any_eq_true _ _).mp hend
  simp only [Bool.and_eq_true, Bool.not_eq_true', beq_iff_eq, bne_iff_ne, decide_eq_true_eq,
    List.all_eq_true, List.mem_range] at htest
  obtain ⟨⟨⟨⟨⟨⟨⟨⟨hi, hf⟩, hreg⟩, hsize⟩, hr⟩, hmap⟩, hold⟩, hsafe⟩, hret⟩ := htest
  have hwf : Wf s := wf_of_run (run_of_guardedAll hs)
  have hint : (s.inodes 2).size.toInt = 2000 := by
    rw [hsize]
    rfl
  have hmapped : ∀ y : ℕ, (1024 * y : ℕ) < (s.inodes 2).size.toInt → s.pointer 2 (dataSlot y) ≠ 0 :=
    fun y hy => hmap y (by omega)
  have hfit : ((500 + 1000 : ℕ) : ℤ) ≤ (s.inodes 2).size.toInt := by omega
  obtain ⟨t, ht⟩ := exists_of_returned hret
  have hbyte := byteAt_of_fsWrite hwf.blocks hi hr hf hmapped (by decide) hfit hsafe ht
    (y := 1024) (by omega)
  have hbelongs := hall _ s t _ _ 2 _ 1000 500 hwf.blocks hi hr hreg hmapped (by decide) hfit ht 1024
    (by omega)
  -- byte 1024 is left as it was
  have hleft : shifted (s.byteAt 2) (fun _ => 1) 1000 (500 / 1024) (500 % 1024) 1024 = s.byteAt 2 1024 := rfl
  have hnew : overlaid (s.byteAt 2) (fun _ => 1) 1000 500 1024 = some 1 := rfl
  rw [hbyte, hleft, hold, hnew] at hbelongs
  exact absurd hbelongs (by decide)

end FS

end Fsx600
