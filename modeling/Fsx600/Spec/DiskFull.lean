import Fsx600.Spec.Appending
import Fsx600.Spec.Intact

/-!
# When the disk is full

A write comes to a full disk exactly when it needs more blocks than are free.  What it has
stored by then can be read off the state before: the passes that it makes are those for which
there are blocks (`Supplied`).

* `Writes.total_nonneg_iff`: whether a write comes to a full disk;
* `Writes.byteAt_of_lt`, `Writes.byteAt_of_not_supplied`, `Writes.byteAt_of_supplied`: the bytes
  of the file below the range, past the last pass, and in between;
* `Writes.total_le`, `Writes.total_of_straight`: how much is counted.

All of this is about writes that take no level-1 block with leftovers.
-/

namespace Fsx600

open Function

namespace FS

variable {g : Layout} {s t : FS g} {inum i x y z n k len offset : ℕ} {σ : Slot} {p : UInt32} {base : Block}
  {start : ℕ} {v w : WriteVars g} {f : Flow g}

/-- There are free blocks for what the first `n` passes from data slot `x` on need. -/
def Supplied (s : FS g) (i n x offset len : ℕ) : Prop := (s.needs i n x offset len).length ≤ s.freeCount

instance (s : FS g) (i n x offset len : ℕ) : Decidable (s.Supplied i n x offset len) :=
  inferInstanceAs (Decidable (_ ≤ _))

/-! ## One pass more -/

theorem length_taken_mono (e : Slot → Bool) (h : k ≤ n) :
    (taken e k x offset len).length ≤ (taken e n x offset len).length := by
  induction k generalizing e n x offset len with
  | zero => exact Nat.zero_le _
  | succ k ih =>
    obtain ⟨n, rfl⟩ : ∃ m, n = m + 1 := ⟨n - 1, by omega⟩
    rw [taken, taken, List.length_append, List.length_append]
    refine Nat.add_le_add_left ?_ _
    by_cases hlast : len ≤ 1024 - if e (dataSlot x) = true then 0 else offset % 1024
    · rw [if_pos hlast, if_pos hlast]
    · rw [if_neg hlast, if_neg hlast]
      exact ih _ (by omega)

/-- Fewer passes need fewer blocks. -/
theorem Supplied.mono (h : s.Supplied i n x offset len) (hk : k ≤ n) : s.Supplied i k x offset len :=
  le_trans (length_taken_mono _ hk) h

theorem supplied_zero : s.Supplied i 0 x offset len := Nat.zero_le _

theorem freeCount_pos {b : ℕ} (h : s.Free b) : 0 < s.freeCount :=
  Finset.card_pos.2 ⟨b, FirstFit.mem_clear.2 h⟩

/-- A missing block of pointers has been taken. -/
theorem Tabled.supplied_iff (h : Tabled inum σ p v w) (hs : v.fs.SoundBlocks) (hσ : σ ∈ tables x) :
    v.fs.Supplied inum (n + 1) x v.offset v.len ↔ w.fs.Supplied inum (n + 1) x w.offset w.len := by
  have hcount := h.stored.freeCount hs
  rw [if_pos h.empty] at hcount
  unfold Supplied
  rw [h.needs hσ, h.len, h.offset, List.length_cons]
  omega

/-- A pass has been made, and others follow. -/
theorem Pass.supplied_iff (h : Pass inum x p base start v w) (hs : v.fs.SoundBlocks) (hlen : w.len ≠ 0) :
    v.fs.Supplied inum (n + 1) x v.offset v.len ↔
      w.fs.Supplied inum n (x + 1) (resume (x + 1) w).offset w.len := by
  have hcount := h.stored.freeCount hs
  unfold Supplied
  rw [h.needs, if_neg hlen, List.length_append]
  split_ifs at hcount ⊢
  · rw [List.length_singleton]
    omega
  · rw [List.length_nil]
    omega

/-- The last pass had what it needed. -/
theorem Pass.supplied (h : Pass inum x p base start v w) (hs : v.fs.SoundBlocks)
    (hn : w.len = 0 ∨ n = 0) : v.fs.Supplied inum (n + 1) x v.offset v.len := by
  have hcount := h.stored.freeCount hs
  have hrest : (if w.len = 0 then [] else
      w.fs.needs inum n (x + 1) (resume (x + 1) w).offset w.len) = [] := by
    rcases hn with hn | rfl
    · exact if_pos hn
    · exact ite_self _
  unfold Supplied
  rw [h.needs, hrest, List.append_nil]
  split_ifs at hcount ⊢
  · rw [List.length_singleton]
    omega
  · exact Nat.zero_le _

/-- A full disk has no block for a slot that is missing. -/
theorem not_supplied_of_full (hσ : σ ∈ tables x ∨ σ = dataSlot x) (h0 : s.pointer i σ = 0)
    (hfull : ∀ b, ¬ s.Free b) : ¬ s.Supplied i (n + 1) x offset len := by
  unfold Supplied
  rw [freeCount_eq_zero hfull, not_le]
  exact length_needs_pos hσ h0

/-! ## Whether the disk is full -/

/-- **A write comes to a full disk** exactly when it needs more blocks than are free. -/
theorem Writes.total_nonneg_iff (h : Writes NoLeftovers inum 65798 x v f) (hv : Ready inum v)
    (hx : n + x = 65798) : 0 ≤ f.total ↔ v.fs.Supplied inum n x v.offset v.len := by
  induction h generalizing n with
  | @table x σ p v w f hσ ht _ _ ih =>
    cases n with
    | zero => exact (ih ht.ready hx).trans (iff_of_true supplied_zero supplied_zero)
    | succ n => exact (ih ht.ready hx).trans (ht.supplied_iff hv.blocks hσ).symm
  | full hlt hσ h0 hfull =>
    obtain ⟨n, rfl⟩ : ∃ k, n = k + 1 := ⟨n - 1, by omega⟩
    refine iff_of_false ?_ (not_supplied_of_full hσ h0 hfull)
    change ¬ (0 : ℤ) ≤ -ENOSPC
    decide
  | dirty _ _ _ _ _ _ hL => exact hL.elim
  | @last x p base start v w hp hlen =>
    obtain ⟨n, rfl⟩ : ∃ k, n = k + 1 := ⟨n - 1, by have := hp.lt; omega⟩
    exact iff_of_true (Int.natCast_nonneg _) (hp.supplied hv.blocks (Or.inl hlen))
  | @pass x p base start v w f hp hlen _ ih =>
    obtain ⟨n, rfl⟩ : ∃ k, n = k + 1 := ⟨n - 1, by have := hp.lt; omega⟩
    have hrest := ih (n := n) (hp.ready.resume _) (by omega)
    rw [resume_fs, resume_len] at hrest
    exact hrest.trans (hp.supplied_iff hv.blocks hlen).symm
  | done =>
    obtain rfl : n = 0 := by omega
    exact iff_of_true (Int.natCast_nonneg _) supplied_zero

/-- Then no block is left. -/
theorem Writes.freeCount_eq_zero (h : Writes NoLeftovers inum 65798 x v f) (hneg : f.total < 0) :
    f.state.freeCount = 0 := by
  induction h with
  | table _ _ _ _ ih => exact ih hneg
  | full _ _ _ hfull => exact FS.freeCount_eq_zero hfull
  | dirty _ _ _ _ _ _ hL => exact hL.elim
  | last => exact absurd hneg (not_lt.2 (Int.natCast_nonneg _))
  | pass _ _ _ ih => exact ih hneg
  | done => exact absurd hneg (not_lt.2 (Int.natCast_nonneg _))

/-- If no block is free and the first slot has none, nothing is done. -/
theorem Writes.eq_of_freeCount_eq_zero (h : Writes NoLeftovers inum 65798 x v f) (hx : x < 65798)
    (hfree : v.fs.freeCount = 0) (h0 : v.fs.pointer inum (dataSlot x) = 0) :
    f = .cleanup (-ENOSPC) v.fs := by
  have hnone : ∀ {w : WriteVars g} {σ : Slot} {p : UInt32} {b : Block} {m : ℕ},
      v.fs.pointer inum σ = 0 → ¬ Stored inum σ p b m v.fs w.fs := by
    intro w σ p b m hσ hstored
    rcases hstored.source with ⟨hp, hne, -⟩ | ⟨-, -, hlow⟩
    · exact hne (hp.symm.trans hσ)
    · exact (freeCount_pos hlow.free).ne' hfree
  cases h with
  | table _ ht => exact absurd ht.stored (hnone ht.empty)
  | full => rfl
  | dirty _ _ _ _ _ _ hL => exact hL.elim
  | last hp => exact absurd hp.stored (hnone h0)
  | pass hp => exact absurd hp.stored (hnone h0)
  | done => omega

/-- In a block that exists a pass starts where `offset` says. -/
theorem Pass.start_eq (hp : Pass inum x p base start v w) (h0 : v.fs.pointer inum (dataSlot x) ≠ 0) :
    start = v.offset % 1024 := by
  rw [← hp.start_eq_ite, if_neg h0]

/-- If the first slot has a block, there is a pass. -/
theorem Writes.first_pass (h : Writes NoLeftovers inum 65798 x v f) (h0 : v.fs.pointer inum (dataSlot x) ≠ 0) :
    ∃ (p : UInt32) (base : Block) (w : WriteVars g), Pass inum x p base (v.offset % 1024) v w ∧
      (w.len = 0 ∧ f = .cleanup w.total w.fs ∨
        w.len ≠ 0 ∧ Writes NoLeftovers inum 65798 (x + 1) (resume (x + 1) w) f) := by
  have hway := pointer_tables_ne_zero h0
  cases h with
  | table hσ ht => exact absurd ht.empty (hway _ hσ)
  | full _ hσ hzero =>
    rcases hσ with hσ | rfl
    · exact absurd hzero (hway _ hσ)
    · exact absurd hzero h0
  | dirty _ _ _ _ _ _ hL => exact hL.elim
  | @last _ p base start _ w hp hlen =>
    obtain rfl := hp.start_eq h0
    exact ⟨p, base, w, hp, Or.inl ⟨hlen, rfl⟩⟩
  | @pass _ p base start _ w f hp hlen hrest =>
    obtain rfl := hp.start_eq h0
    exact ⟨p, base, w, hp, Or.inr ⟨hlen, hrest⟩⟩
  | done => exact absurd (lt_of_pointer_dataSlot h0) (lt_irrefl _)

/-! ## The bytes of the file -/

/-- A new block of pointers leaves the contents alone. -/
theorem Tabled.byteAt (h : Tabled inum σ p v w) (hs : v.fs.SoundBlocks) (hσ : σ ∈ tables x) (y : ℕ) :
    w.fs.byteAt inum y = v.fs.byteAt inum y := by
  refine h.stored.byteAt hs ?_
  rintro rfl
  exact not_isTable_dataSlot _ (isTable_of_mem_tables hσ)

/-- A pass leaves the other blocks alone. -/
theorem Pass.byteAt_of_ne (h : Pass inum x p base start v w) (hs : v.fs.SoundBlocks) (hy : y / 1024 ≠ x) :
    w.fs.byteAt inum y = v.fs.byteAt inum y :=
  h.stored.byteAt hs fun heq => hy (dataSlot_injective heq)

/-- What a pass has filled. -/
theorem Pass.byteAt_filled (h : Pass inum x p base start v w) (hy : y / 1024 = x) (hle : start ≤ y % 1024)
    (hlt : y % 1024 < start + fillCount v.len start) :
    w.fs.byteAt inum y = some (v.buf (y % 1024 - start)) := by
  have hself : w.fs.pointer inum (dataSlot (y / 1024)) = p := by
    rw [hy, h.stored.pointer_self]
  rw [byteAt_of_pointer (hself ▸ h.stored.ne_zero), hself, h.stored.content, passBlock,
    Block.byte_memcpy _ _ _ _ (by omega), if_pos ⟨hle, hlt⟩]

/-- What a pass has not filled, in a block that was there. -/
theorem Pass.byteAt_of_lt_start (h : Pass inum x p base start v w) (h0 : v.fs.pointer inum (dataSlot x) ≠ 0)
    (hy : y / 1024 = x) (hlt : y % 1024 < start ∨ start + fillCount v.len start ≤ y % 1024) :
    w.fs.byteAt inum y = v.fs.byteAt inum y := by
  have hself : w.fs.pointer inum (dataSlot (y / 1024)) = p := by
    rw [hy, h.stored.pointer_self]
  have hbase : base = v.fs.disk (v.fs.pointer inum (dataSlot (y / 1024))).toNat := by
    rcases h.head with ⟨hz, -, -⟩ | ⟨-, -, hbase⟩
    · exact absurd hz h0
    · rw [hy, hbase]
  rw [byteAt_of_pointer (hself ▸ h.stored.ne_zero), byteAt_of_pointer (hy.symm ▸ h0), hself,
    h.stored.content, passBlock, Block.byte_memcpy _ _ _ _ (by omega), if_neg (by omega), ← hbase]

/-- The bytes in the blocks below. -/
theorem Writes.byteAt_of_lt (h : Writes NoLeftovers inum 65798 x v f) (hv : Ready inum v) (hy : y / 1024 < x) :
    f.state.byteAt inum y = v.fs.byteAt inum y := by
  refine (h.keeps (P := fun u => u.byteAt inum y = v.fs.byteAt inum y) hv rfl
    fun hs ⟨z, hz, hσ⟩ heq hstored => ?_).2
  refine (hstored.byteAt hs ?_).trans heq
  rintro rfl
  obtain rfl := mem_way_dataSlot.1 hσ
  omega

/-- A slot that has a block keeps one. -/
theorem Writes.pointer_ne_zero (h : Writes NoLeftovers inum 65798 x v f) (hv : Ready inum v)
    (h0 : v.fs.pointer inum σ ≠ 0) : f.state.pointer inum σ ≠ 0 :=
  (h.keeps (P := fun u => u.pointer inum σ ≠ 0) hv h0 fun _ _ hne hstored => hstored.pointer_ne_zero hne).2

/-- If there are blocks for the first pass, it is made. -/
theorem Writes.pointer_of_supplied (h : Writes NoLeftovers inum 65798 x v f) (hv : Ready inum v)
    (hlt : x < 65798) (hs : v.fs.Supplied inum 1 x v.offset v.len) :
    f.state.pointer inum (dataSlot x) ≠ 0 := by
  induction h with
  | table hσ ht _ _ ih => exact ih ht.ready hlt ((ht.supplied_iff hv.blocks hσ).1 hs)
  | full _ hσ h0 hfull => exact absurd hs (not_supplied_of_full hσ h0 hfull)
  | dirty _ _ _ _ _ _ hL => exact hL.elim
  | last hp => exact hp.stored.self_ne_zero
  | @pass x p base start v w f hp _ hrest _ =>
    exact hrest.pointer_ne_zero (hp.ready.resume _) (by rw [resume_fs]; exact hp.stored.self_ne_zero)
  | done => omega

/-- **Past the last pass** that there are blocks for, the file is as it was. -/
theorem Writes.byteAt_of_not_supplied (h : Writes NoLeftovers inum 65798 x v f) (hv : Ready inum v)
    (hn : n + x = y / 1024) (hlt : y / 1024 < 65798)
    (hs : ¬ v.fs.Supplied inum (n + 1) x v.offset v.len) :
    f.state.byteAt inum y = v.fs.byteAt inum y := by
  induction h generalizing n with
  | table hσ ht _ _ ih =>
    rw [ih ht.ready hn fun h => hs ((ht.supplied_iff hv.blocks hσ).2 h), ht.byteAt hv.blocks hσ]
  | full => rfl
  | dirty _ _ _ _ _ _ hL => exact hL.elim
  | last hp hlen => exact absurd (hp.supplied hv.blocks (Or.inl hlen)) hs
  | @pass x p base start v w f hp hlen _ ih =>
    cases n with
    | zero => exact absurd (hp.supplied hv.blocks (Or.inr rfl)) hs
    | succ n =>
      rw [hp.supplied_iff hv.blocks hlen] at hs
      have hrest := ih (n := n) (hp.ready.resume _) (by omega) (by rwa [resume_fs, resume_len])
      rw [hrest, resume_fs, hp.byteAt_of_ne hv.blocks (by omega)]
  | done => omega

/-! ## Passes that start at the beginning of their blocks -/

/-- Every pass from data slot `x` on fills its block from the beginning. -/
def Straight (inum x : ℕ) (v : WriteVars g) : Prop :=
  v.offset % 1024 = 0 ∨ (x < 262 ∧ v.fs.pointer inum (dataSlot x) = 0) ∨
    ∀ z, x ≤ z → v.fs.pointer inum (dataSlot z) = 0

theorem Straight.tabled (h : Straight inum x v) (ht : Tabled inum σ p v w) (hσ : σ ∈ tables x) :
    Straight inum x w := by
  unfold Straight
  simp only [ht.offset, ht.pointer_dataSlot hσ]
  exact h

theorem Straight.start_eq (h : Straight inum x v) (hp : Pass inum x p base start v w) : start = 0 := by
  rw [← hp.start_eq_ite]
  rcases h with h | ⟨-, h⟩ | h
  · rw [h, ite_self]
  · exact if_pos h
  · exact if_pos (h x le_rfl)

theorem Pass.pointer_of_ne (hp : Pass inum x p base start v w) (hz : z ≠ x) :
    w.fs.pointer inum (dataSlot z) = v.fs.pointer inum (dataSlot z) := by
  rw [hp.stored.pointer, update_of_ne fun heq => hz (dataSlot_injective heq)]

/-- The next pass starts where its offset says, if that has not been reset. -/
theorem Pass.resume_offset (hp : Pass inum x p base start v w) :
    (resume (x + 1) w).offset = if (x < 262 ∧ start = 0) ∨ x + 1 = 6 ∨ x + 1 = 262 then 0 else v.offset := by
  unfold resume
  rw [apply_ite WriteVars.offset, hp.offset]
  split_ifs <;> first | rfl | omega

theorem Straight.pass (h : Straight inum x v) (hp : Pass inum x p base start v w) :
    Straight inum (x + 1) (resume (x + 1) w) := by
  have hstart := h.start_eq hp
  unfold Straight
  rw [resume_fs, hp.resume_offset]
  by_cases hx : x < 262
  · exact Or.inl (by rw [if_pos (Or.inl ⟨hx, hstart⟩)])
  · rw [if_neg (by omega)]
    rcases h with h | ⟨hlt, -⟩ | h
    · exact Or.inl h
    · exact absurd hlt hx
    · refine Or.inr (Or.inr fun z hz => ?_)
      rw [hp.pointer_of_ne (by omega)]
      exact h z (by omega)

/-- **What the passes store**, if there are blocks for them. -/
theorem Writes.byteAt_of_supplied (h : Writes NoLeftovers inum 65798 x v f) (hv : Ready inum v)
    (hst : Straight inum x v) (hn : n + x = y / 1024) (hlt : y / 1024 < 65798)
    (hs : v.fs.Supplied inum (n + 1) x v.offset v.len) (hy : y < 1024 * x + v.len ∨ f.total < 0) :
    f.state.byteAt inum y = some (v.buf (y - 1024 * x)) := by
  induction h generalizing n with
  | table hσ ht _ _ ih =>
    rw [ih ht.ready (hst.tabled ht hσ) hn ((ht.supplied_iff hv.blocks hσ).1 hs) (by rwa [ht.len]), ht.buf]
  | full _ hσ h0 hfull => exact absurd hs (not_supplied_of_full hσ h0 hfull)
  | dirty _ _ _ _ _ _ hL => exact hL.elim
  | @last x p base start v w hp hlen =>
    obtain rfl := hst.start_eq hp
    obtain ⟨hall, hroom⟩ := hp.fill_last hlen
    have hnonneg : ¬ (Flow.cleanup (w.total : ℤ) w.fs).total < 0 := not_lt.2 (Int.natCast_nonneg _)
    have hin : y < 1024 * x + v.len := hy.resolve_right hnonneg
    have hoffset : y - 1024 * x = y % 1024 - 0 := by omega
    rw [hoffset]
    exact hp.byteAt_filled (by omega) (Nat.zero_le _) (by omega)
  | @pass x p base start v w f hp hlen hrest ih =>
    obtain rfl := hst.start_eq hp
    obtain ⟨hall, hroom⟩ := hp.fill_pass hlen
    have hready := hp.ready.resume (x + 1)
    cases n with
    | zero =>
      have hoffset : y - 1024 * x = y % 1024 - 0 := by omega
      rw [hrest.byteAt_of_lt hready (by omega), resume_fs, hoffset]
      exact hp.byteAt_filled (by omega) (Nat.zero_le _) (by omega)
    | succ n =>
      rw [hp.supplied_iff hv.blocks hlen] at hs
      have hlenw := hp.len
      rw [ih (n := n) hready (hst.pass hp) (by omega) (by rwa [resume_fs, resume_len])
        (by rw [resume_len]; omega), resume_buf, hp.buf, hall]
      have hsame : 1024 - 0 + (y - 1024 * (x + 1)) = y - 1024 * x := by omega
      exact congrArg (fun m => some (v.buf m)) hsame
  | done => omega

/-! ## How much is counted -/

/-- What is counted fits in the slots. -/
theorem Writes.total_le (h : Writes NoLeftovers inum 65798 x v f) :
    f.total ≤ v.total + 1024 * (65798 - x : ℕ) := by
  induction h with
  | table _ ht _ _ ih => rwa [ht.total] at ih
  | full =>
    change (-ENOSPC : ℤ) ≤ _
    unfold ENOSPC
    omega
  | dirty _ _ _ _ _ _ hL => exact hL.elim
  | @last x p base start v w hp hlen =>
    have hlt := hp.lt
    have htotal := hp.total
    obtain ⟨hall, hroom⟩ := hp.fill_last hlen
    change (w.total : ℤ) ≤ _
    omega
  | @pass x p base start v w f hp hlen _ ih =>
    have hlt := hp.lt
    have htotal := hp.total
    obtain ⟨hall, hroom⟩ := hp.fill_pass hlen
    rw [resume_total] at ih
    omega
  | done =>
    change ((_ : ℕ) : ℤ) ≤ _
    omega

/-- What is counted if every pass fills its block from the beginning. -/
theorem Writes.total_of_straight (h : Writes NoLeftovers inum 65798 x v f) (hst : Straight inum x v)
    (h0 : 0 ≤ f.total) (hx : x ≤ 65798) :
    f.total = v.total + min v.len (1024 * (65798 - x)) := by
  induction h with
  | table hσ ht _ _ ih =>
    rw [ih (hst.tabled ht hσ) h0 hx, ht.total, ht.len]
  | full =>
    change (0 : ℤ) ≤ -ENOSPC at h0
    exact absurd h0 (by decide)
  | dirty _ _ _ _ _ _ hL => exact hL.elim
  | @last x p base start v w hp hlen =>
    obtain rfl := hst.start_eq hp
    have hlt := hp.lt
    have htotal := hp.total
    obtain ⟨hall, hroom⟩ := hp.fill_last hlen
    change (w.total : ℤ) = _
    omega
  | @pass x p base start v w f hp hlen _ ih =>
    obtain rfl := hst.start_eq hp
    have hlt := hp.lt
    have htotal := hp.total
    have hlenw := hp.len
    obtain ⟨hall, hroom⟩ := hp.fill_pass hlen
    rw [ih (hst.pass hp) h0 hlt, resume_total, resume_len]
    omega
  | done =>
    change ((_ : ℕ) : ℤ) = _
    omega

/-- A block that is there costs the bytes before its start, if the offset is still what it was
when the write comes to it. -/
theorem Writes.total_le_of_mapped (h : Writes NoLeftovers inum 65798 x v f) (hxz : x ≤ z)
    (hz : v.fs.pointer inum (dataSlot z) ≠ 0) (hlate : z = x ∨ 262 ≤ x) :
    f.total ≤ v.total + 1024 * (65798 - x : ℕ) - (v.offset % 1024 : ℕ) := by
  have hzlt := lt_of_pointer_dataSlot hz
  induction h with
  | table hσ ht _ _ ih =>
    have hrest := ih hxz (by rwa [ht.pointer_dataSlot hσ]) hlate
    rwa [ht.total, ht.offset] at hrest
  | full =>
    change (-ENOSPC : ℤ) ≤ _
    unfold ENOSPC
    omega
  | dirty _ _ _ _ _ _ hL => exact hL.elim
  | @last x p base start v w hp hlen =>
    have htotal := hp.total
    obtain ⟨hall, hroom⟩ := hp.fill_last hlen
    have hstart : z = x → start = v.offset % 1024 := by
      rintro rfl
      exact hp.start_eq hz
    change (w.total : ℤ) ≤ _
    omega
  | @pass x p base start v w f hp hlen hrest ih =>
    have htotal := hp.total
    obtain ⟨hall, hroom⟩ := hp.fill_pass hlen
    rcases eq_or_ne z x with rfl | hzx
    · have hstart := hp.start_eq hz
      have hle := hrest.total_le
      rw [resume_total] at hle
      omega
    · have hle := ih (by omega) (by rwa [resume_fs, hp.pointer_of_ne hzx]) (by omega)
      rw [resume_total, hp.resume_offset, if_neg (by omega)] at hle
      omega
  | done => omega

/-- What is counted is added to the size, also if the disk is full in the end. -/
theorem Writes.size_eq (h : Writes NoLeftovers inum 65798 x v f) : ∃ k ≤ 1024 * (65798 - x),
    (f.state.inodes inum).size = (v.fs.inodes inum).size + Int32.ofNat k := by
  induction h with
  | table _ ht _ _ ih =>
    obtain ⟨k, hk, hsize⟩ := ih
    refine ⟨k, hk, hsize.trans ?_⟩
    rw [ht.stored.size]
    exact congrArg (· + _) (Int32.add_zero _)
  | full => exact ⟨0, Nat.zero_le _, (Int32.add_zero _).symm⟩
  | dirty _ _ _ _ _ _ hL => exact hL.elim
  | @last x p base start v w hp hlen =>
    have hlt := hp.lt
    obtain ⟨hall, hroom⟩ := hp.fill_last hlen
    exact ⟨_, by omega, hp.stored.size⟩
  | @pass x p base start v w f hp hlen _ ih =>
    have hlt := hp.lt
    obtain ⟨hall, hroom⟩ := hp.fill_pass hlen
    obtain ⟨k, hk, hsize⟩ := ih
    refine ⟨fillCount v.len start + k, by omega, ?_⟩
    rw [hsize, resume_fs, hp.stored.size, Int32.ofNat_add, Int32.add_assoc]
  | done => exact ⟨0, Nat.zero_le _, (Int32.add_zero _).symm⟩

/-! ## The whole of a write -/

/-- The data slot that a write at `offset` starts with. -/
def firstSlot (offset : ℕ) : ℕ := if offset / 1024 < 65798 then offset / 1024 else 6

/-- `offset` when the loops are entered. -/
def firstOffset (offset : ℕ) : ℕ := if offset / 1024 < 65798 then offset else 0

theorem firstSlot_lt (offset : ℕ) : firstSlot offset < 65798 := by
  unfold firstSlot
  split <;> omega

/-- There are free blocks for all that a write of `len` bytes at `offset` needs. -/
def Enough (s : FS g) (i offset len : ℕ) : Prop :=
  s.Supplied i (65798 - firstSlot offset) (firstSlot offset) (firstOffset offset) len

instance (s : FS g) (i offset len : ℕ) : Decidable (s.Enough i offset len) :=
  inferInstanceAs (Decidable (s.Supplied ..))

/-- Where no block is free, none is taken for a level-1 block. -/
theorem tableSafe_of_freeCount_eq_zero (h : s.freeCount = 0) : s.TableSafe i offset len := by
  have hnone : s.freeBlocks = [] :=
    List.eq_nil_iff_forall_not_mem.2 fun b hb => (freeCount_pos (mem_freeBlocks.1 hb)).ne' h
  intro y hy
  rw [hnone, List.zip_nil_right] at hy
  exact absurd hy List.not_mem_nil

/-- A new time keeps the file and the bitmap. -/
theorem TouchResult.intact {now : UInt32} {path : Path} {e : ℤ}
    (h : TouchResult (fun ino => { ino with mtime := now }) s path e t) (hs : s.SoundBlocks)
    (hi : s.inodeMap i = true) (hf : s.isDir i = false) : Intact i s t ∧ t.blockMap = s.blockMap := by
  cases h with
  | badPath => exact ⟨.refl i s, rfl⟩
  | touched => exact ⟨intact_touch hs hi hf _ _, rfl⟩

/-- **A write to a file** that returns is refused for its offset, or is a sequence of passes. -/
theorem writes_of_fsWrite (hs : s.SoundBlocks) (hi : s.inodeMap i = true) {c : Context} {path : Path}
    (hr : s.resolve 1 path.tokens = .inr i) (hf : s.isDir i = false) {buf : ℕ → UInt8}
    {r : ℤ} (hw : s.fsWrite c path buf len offset = .ok (r, t))
    (hsafe : (offset : ℤ) ≤ (s.inodes i).size.toInt → s.TableSafe i offset len) :
    ((s.inodes i).size.toInt < offset ∧ r = -EINVAL ∧ t = s) ∨
      (offset : ℤ) ≤ (s.inodes i).size.toInt ∧ ∃ f : Flow g, f.total = r ∧
        Writes NoLeftovers i 65798 (firstSlot offset) (s.writeVars i buf len offset) f ∧
        Intact i f.state t ∧ t.blockMap = f.state.blockMap := by
  rcases cases_of_fsWrite hs hi hr hf hw with hrefused | ⟨ho, f, e, htotal, -, hwrites, ht⟩
  · exact Or.inl hrefused
  have hv := hs.ready_writeVars hi hf buf len offset
  have hclean := hwrites.clean hv (Nat.sub_add_cancel (firstSlot_lt offset).le) (hsafe ho)
  obtain ⟨hs', hi', hf'⟩ := hclean.keeps_file hv
  exact Or.inr ⟨ho, f, htotal, hclean, ht.intact hs' hi' hf'⟩

/-! ## A write that is too long -/

/-- Where all data slots from `x` on are empty, every pass takes a block. -/
theorem le_length_taken {e : Slot → Bool} (he : ∀ y, x ≤ y → e (dataSlot y) = true) (hk : k ≤ n)
    (hlen : 1024 * k ≤ len) : k ≤ (taken e n x offset len).length := by
  induction k generalizing e n x offset len with
  | zero => exact Nat.zero_le _
  | succ k ih =>
    obtain ⟨n, rfl⟩ : ∃ m, n = m + 1 := ⟨n - 1, by omega⟩
    have hpos : 0 < ((way x).filter e).length :=
      List.length_pos_of_mem (List.mem_filter.2 ⟨dataSlot_mem_way x, he x le_rfl⟩)
    rw [taken, List.length_append, if_pos (he x le_rfl)]
    split
    · omega
    · have hrest : ∀ y, x + 1 ≤ y → (e (dataSlot y) && !(way x).contains (dataSlot y)) = true := by
        intro y hy
        rw [he y (by omega), Bool.true_and, Bool.not_eq_true', List.contains_eq_mem, decide_eq_false_iff_not,
          mem_way_dataSlot]
        omega
      rw [Nat.add_comm k 1]
      exact Nat.add_le_add hpos (ih (e := fun σ => e σ && !(way x).contains σ) hrest (by omega) (by omega))

/-- **A write that needs more blocks than are free** returns, and leaves none. -/
theorem WellFormed.freeCount_of_not_enough (h : WellFormed s) {path : Path} (hp : path.Proper)
    (hr : s.resolve 1 path.tokens = .inr i) (hf : s.isDir i = false) (hlt : offset / 1024 < 65798)
    (ho : (offset : ℤ) ≤ (s.inodes i).size.toInt) (hsafe : s.TableSafe i offset len)
    (hnot : ¬ s.Enough i offset len) (c : Context) (buf : ℕ → UInt8) :
    ∃ r t, s.fsWrite c path buf len offset = .ok (r, t) ∧ t.freeCount = 0 := by
  have hi := h.alloc_of_resolve hr
  have hv := h.blocks.ready_writeVars hi hf buf len offset
  have hfirst : firstSlot offset = offset / 1024 := if_pos hlt
  have hsplit : 65798 - firstSlot offset + firstSlot offset = 65798 :=
    Nat.sub_add_cancel (firstSlot_lt offset).le
  have hvars : s.writeVars i buf len offset = ⟨s, s.inodes i, buf, len, offset, 0⟩ := by
    rw [writeVars, if_pos hlt]
  have hfull : ∀ f, Writes NoLeftovers i 65798 (firstSlot offset) (s.writeVars i buf len offset) f →
      f.total < 0 := fun f hw => not_le.1 (mt (hw.total_nonneg_iff hv hsplit).1 hnot)
  -- the loops end the write, since nothing else returns a negative number
  obtain ⟨f, hloops⟩ : Checked.Returns (writeBlocks i (offset / 1024) (s.writeVars i buf len offset)) := by
    refine hv.writeBlocks_returns h.sized hlt fun f hw => ?_
    have hneg := hfull f ((hfirst ▸ hw).clean hv hsplit hsafe)
    cases f with
    | cleanup total u => exact ⟨total, u, rfl⟩
    | next w => exact absurd hneg (not_lt.2 (Int.natCast_nonneg _))
  have hw := writeBlocks_writes hv hloops
  rw [if_pos hlt, if_pos hlt, ← hfirst] at hw
  have hwf : Wf f.state := ((hw.clean hv hsplit hsafe).keeps hv h.toWf fun _ _ hP hstored => hstored.wf hP).2
  have hreturns : Checked.Returns (s.fsWrite c path buf len offset) := h.fsWrite_returns hp fun i' hr' _ => by
    obtain rfl := Sum.inr.inj (hr.symm.trans hr')
    exact ⟨f, hvars ▸ hloops, hwf⟩
  obtain ⟨⟨r, t⟩, ht⟩ := hreturns
  refine ⟨r, t, ht, ?_⟩
  rcases writes_of_fsWrite h.blocks hi hr hf ht fun _ => hsafe with ⟨hbad, -⟩ | ⟨-, f', -, hw', -, hmap⟩
  · omega
  · have hzero := hw'.freeCount_eq_zero (hfull f' hw')
    unfold freeCount at hzero ⊢
    rwa [hmap]

end FS

end Fsx600
