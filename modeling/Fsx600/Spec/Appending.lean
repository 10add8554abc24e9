import Fsx600.Spec.Taken
import Fsx600.Spec.WriteReturns

/-!
# Writing at the end of a file

A file that has been written from the start without gaps holds a prefix of what is to be
written, in its first blocks.  A write at its end fills up the last block, if it is not full,
and puts the rest in new blocks; so the offset, which the first two loops of `fs_write` handle
differently for old blocks and new ones, only matters in the first pass.

`Writes.append` is the induction over the passes.  It takes that the level-1 blocks are clean;
below block 262 there are none, and what the write takes can be told in advance (`taken_below`).
-/

namespace Fsx600

open Function

/-- The blocks it takes to hold `n` bytes of data. -/
def dataBlocks (n : ℕ) : ℕ := (n + 1023) / 1024

namespace FS

variable {g : Layout} {inum stop x i n m o : ℕ} {v w : WriteVars g} {f : Flow g} {s s' : FS g}
  {σ τ : Slot} {p : UInt32} {b base : Block} {start : ℕ} {D : ℕ → UInt8}
  {L : Block → ℕ → Prop}

/-! ## Counting blocks -/

/-- The blocks of the data region that are marked in use. -/
def usedCount (s : FS g) : ℕ := (FirstFit.marked s.blockMap g.startBlock g.maxNumBlocks).card

/-- The blocks of the data region that are free. -/
def freeCount (s : FS g) : ℕ := (FirstFit.clear s.blockMap g.startBlock g.maxNumBlocks).card

theorem usedCount_add_freeCount (s : FS g) :
    s.usedCount + s.freeCount = g.maxNumBlocks - g.startBlock :=
  FirstFit.card_marked_add_card_clear ..

theorem freeCount_eq_zero (h : ∀ b, ¬ s.Free b) : s.freeCount = 0 := by
  rw [freeCount, Finset.card_eq_zero, Finset.eq_empty_iff_forall_notMem]
  exact fun b hb => h b (FirstFit.mem_clear.1 hb)

/-- Storing takes a block if the slot was empty. -/
theorem Stored.freeCount (hs : s.SoundBlocks) (h : Stored i σ p b n s s') :
    s'.freeCount + (if s.pointer i σ = 0 then 1 else 0) = s.freeCount := by
  rw [FS.freeCount, FS.freeCount, h.blockMap]
  rcases h.source with ⟨hp, h0, -⟩ | ⟨hz, -, hlow⟩
  · rw [if_neg (hp.symm ▸ h0)]
    have hold := (hs.sound.used (owner_of_pointer h.alloc h.file (hp.symm ▸ h0))).2.2
    rw [hp] at hold
    rw [← hold, update_eq_self, Nat.add_zero]
  · rw [if_pos hz]
    exact FirstFit.card_clear_mark (FirstFit.mem_clear.2 hlow.free)

/-! ## The contents of a file -/

/-- The file `i` holds the first `n` bytes of `D`, in as many blocks as that takes. -/
structure Prefix (i : ℕ) (D : ℕ → UInt8) (n : ℕ) (s : FS g) : Prop where
  size : (s.inodes i).size = Int32.ofNat n
  mapped : ∀ x, s.pointer i (dataSlot x) ≠ 0 ↔ 1024 * x < n
  byteAt : ∀ x < n, s.byteAt i x = some (D x)

theorem byteAt_of_pointer (h : s.pointer i (dataSlot (x / 1024)) ≠ 0) :
    s.byteAt i x = some ((s.disk (s.pointer i (dataSlot (x / 1024))).toNat).byte (x % 1024)) :=
  if_neg h

theorem byteAt_of_pointer_eq_zero (h : s.pointer i (dataSlot (x / 1024)) = 0) : s.byteAt i x = none :=
  if_pos h

/-- Storing elsewhere in the file keeps a byte. -/
theorem Stored.byteAt (hs : s.SoundBlocks) (h : Stored i σ p b n s s') (hσ : dataSlot (x / 1024) ≠ σ) :
    s'.byteAt i x = s.byteAt i x := by
  have hsame : s'.pointer i (dataSlot (x / 1024)) = s.pointer i (dataSlot (x / 1024)) := by
    rw [h.pointer, update_of_ne hσ]
  by_cases h0 : s.pointer i (dataSlot (x / 1024)) = 0
  · rw [byteAt_of_pointer_eq_zero (hsame.trans h0), byteAt_of_pointer_eq_zero h0]
  have hdisk := h.disk_of_ne hs (owner_of_pointer h.alloc h.file h0)
    (fun heq => hσ (congrArg Prod.snd heq)) fun _ => not_isTable_dataSlot _
  rw [byteAt_of_pointer (hsame ▸ h0), byteAt_of_pointer h0, hsame, hdisk]

/-- A new block of pointers keeps the contents. -/
theorem Prefix.tabled (h : Prefix inum D n v.fs) (hs : v.fs.SoundBlocks) (ht : Tabled inum σ p v w)
    (hσ : σ ∈ tables x) : Prefix inum D n w.fs := by
  have hne : ∀ y, dataSlot y ≠ σ := by
    rintro y rfl
    exact not_isTable_dataSlot y (isTable_of_mem_tables hσ)
  refine ⟨?_, fun y => ?_, fun y hy => ?_⟩
  · rw [ht.stored.size, h.size]
    exact Int32.add_zero _
  · rw [ht.stored.pointer, update_of_ne (hne y)]
    exact h.mapped y
  · rw [ht.stored.byteAt hs (hne _)]
    exact h.byteAt y hy

/-- Where a pass at the end of the file starts in its block. -/
theorem Prefix.start_eq (h : Prefix inum D o v.fs) (hp : Pass inum x p base start v w)
    (hx : o / 1024 = x) (hoff : o % 1024 ≠ 0 → v.offset % 1024 = o % 1024) : start = o % 1024 := by
  have hmapped := h.mapped x
  rcases hp.head with ⟨h0, rfl, -⟩ | ⟨h0, rfl, -⟩
  · have hnot : ¬ 1024 * x < o := fun hlt => (hmapped.2 hlt) h0
    omega
  · have hlt := hmapped.1 h0
    exact hoff (by omega)

/-- **A pass at the end of the file** adds to its contents. -/
theorem Prefix.pass (h : Prefix inum D o v.fs) (hs : v.fs.SoundBlocks) (hp : Pass inum x p base start v w)
    (hx : o / 1024 = x) (hoff : o % 1024 ≠ 0 → v.offset % 1024 = o % 1024) (hlen : 0 < v.len)
    (hbuf : ∀ y < v.len, v.buf y = D (o + y)) : Prefix inum D (o + fillCount v.len start) w.fs := by
  have hstart := h.start_eq hp hx hoff
  have hfill : 0 < fillCount v.len start ∧ fillCount v.len start ≤ v.len ∧
      start + fillCount v.len start ≤ 1024 := by
    rw [fillCount]
    split <;> omega
  have hself : w.fs.pointer inum (dataSlot x) = p := hp.stored.pointer_self
  have hother : ∀ {y}, y ≠ x → dataSlot y ≠ dataSlot x := fun hy heq => hy (dataSlot_injective heq)
  refine ⟨?_, fun y => ?_, fun y hy => ?_⟩
  · rw [hp.stored.size, h.size, Int32.ofNat_add]
  · rcases eq_or_ne y x with rfl | hyx
    · rw [hself]
      exact ⟨fun _ => by omega, fun _ => hp.stored.ne_zero⟩
    · rw [hp.stored.pointer, update_of_ne (hother hyx), h.mapped]
      omega
  · rcases eq_or_ne (y / 1024) x with hyx | hyx
    · have hcontent : (w.fs.disk p.toNat).byte (y % 1024) = D y := by
        rw [hp.stored.content, passBlock, Block.byte_memcpy _ _ _ _ (by omega)]
        by_cases hnew : o ≤ y
        · rw [if_pos (by omega), hbuf _ (by omega)]
          congr 1
          omega
        · -- an old byte of the last block
          rw [if_neg (by omega)]
          have h0 : v.fs.pointer inum (dataSlot (y / 1024)) ≠ 0 := (h.mapped _).2 (by omega)
          have hold := h.byteAt y (by omega)
          rw [byteAt_of_pointer h0, Option.some.injEq, hyx] at hold
          rw [hyx] at h0
          rcases hp.head with ⟨hz, -⟩ | ⟨-, -, rfl⟩
          · exact absurd hz h0
          · exact hold
      rw [byteAt_of_pointer (by rw [hyx, hself]; exact hp.stored.ne_zero), hyx, hself, hcontent]
    · rw [hp.stored.byteAt hs (hother hyx)]
      exact h.byteAt y (by omega)

/-! ## The passes -/

/-- The file has grown to the first `m` bytes of `D`, and has taken `k` blocks for it. -/
structure Grown (i : ℕ) (D : ℕ → UInt8) (m k : ℕ) (s t : FS g) : Prop where
  blocks : t.SoundBlocks
  contents : Prefix i D m t
  freeCount : t.freeCount + k = s.freeCount
  indir1 : t.pointer i .indir1 ≠ 0 → s.pointer i .indir1 ≠ 0 ∨ 6144 < m

/-- The last pass has room for all that is left of the buffer. -/
theorem Pass.fill_last (hp : Pass inum x p base start v w) (hw : w.len = 0) :
    fillCount v.len start = v.len ∧ v.len ≤ 1024 - start := by
  have hlen := hp.len
  rw [hw] at hlen
  unfold fillCount at hlen ⊢
  split at hlen <;> split <;> omega

/-- Any other pass fills its block. -/
theorem Pass.fill_pass (hp : Pass inum x p base start v w) (hw : w.len ≠ 0) :
    fillCount v.len start = 1024 - start ∧ 1024 - start < v.len := by
  have hlen := hp.len
  unfold fillCount at hlen ⊢
  split at hlen
  · next hlt => exact ⟨if_pos hlt, hlt⟩
  · omega

/-- A slot that is missing is among those that are needed. -/
theorem length_needs_pos {s : FS g} {len offset : ℕ} (hσ : σ ∈ tables x ∨ σ = dataSlot x)
    (h0 : s.pointer i σ = 0) : 0 < (s.needs i (n + 1) x offset len).length := by
  have hmem : σ ∈ (way x).filter fun τ => decide (s.pointer i τ = 0) := by
    refine List.mem_filter.2 ⟨List.mem_append.2 (hσ.imp_right List.mem_singleton.2), ?_⟩
    simpa using h0
  have hpos := List.length_pos_of_mem hmem
  rw [FS.needs, taken, List.length_append]
  omega

/-- **A write at the end of a file** appends to its contents, if there are enough free blocks
and those that become level-1 blocks hold zeros. -/
theorem Writes.append (h : Writes NoLeftovers inum stop x v f) (hv : Ready inum v) (hpre : Prefix inum D n v.fs)
    (hx : n / 1024 = x) (hoff : n % 1024 ≠ 0 → v.offset % 1024 = n % 1024) (hlen : 0 < v.len)
    (hm : n + v.len = m) (hle : m ≤ stop * 1024) (hstop : stop ≤ 65798)
    (hbuf : ∀ y < v.len, v.buf y = D (n + y)) {k : ℕ} (hk : k + x = 65798)
    (hfree : (v.fs.needs inum k x v.offset v.len).length ≤ v.fs.freeCount) :
    ∃ t, f = .cleanup ((v.total + v.len : ℕ) : ℤ) t ∧
      Grown inum D m (v.fs.needs inum k x v.offset v.len).length v.fs t := by
  have hlt : x < 65798 := by omega
  induction h generalizing n k with
  | @table x σ p v w f hσ ht _ _ ih =>
    obtain ⟨k, rfl⟩ : ∃ l, k = l + 1 := ⟨k - 1, by omega⟩
    have hneeds : v.fs.needs inum (k + 1) x v.offset v.len = σ :: w.fs.needs inum (k + 1) x v.offset v.len :=
      ht.needs hσ
    have hcount := ht.stored.freeCount hv.blocks
    rw [if_pos ht.empty] at hcount
    rw [hneeds, List.length_cons] at hfree ⊢
    obtain ⟨t, rfl, hgrown⟩ := ih ht.ready (hpre.tabled hv.blocks ht hσ) hx (by rwa [ht.offset])
      (by rwa [ht.len]) (by rwa [ht.len]) (by rwa [ht.len, ht.buf]) hk
      (by rw [ht.len, ht.offset]; omega) hlt
    rw [ht.len, ht.offset] at hgrown
    refine ⟨t, by rw [ht.total, ht.len], ⟨hgrown.blocks, hgrown.contents, ?_, fun h1 => ?_⟩⟩
    · have := hgrown.freeCount
      omega
    · rcases hgrown.indir1 h1 with h1 | hm
      · rw [ht.stored.pointer, update_apply] at h1
        split at h1
        · next heq =>
          -- `indir_1` is taken past the sixth block only
          have hx6 : 6 ≤ x := by
            rw [← heq, tables] at hσ
            split_ifs at hσ
            · simp at hσ
            · omega
            · omega
          exact Or.inr (by omega)
        · exact Or.inl h1
      · exact Or.inr hm
  | @full x σ v _ hσ hzero hfull =>
    obtain ⟨k, rfl⟩ : ∃ l, k = l + 1 := ⟨k - 1, by omega⟩
    have hnone := freeCount_eq_zero hfull
    have hneed : 0 < (v.fs.needs inum (k + 1) x v.offset v.len).length := length_needs_pos hσ hzero
    omega
  | dirty _ _ _ _ _ _ hL => exact hL.elim
  | @last x p base start v w hp hw =>
    obtain ⟨k, rfl⟩ : ∃ l, k = l + 1 := ⟨k - 1, by omega⟩
    obtain ⟨hall, -⟩ := hp.fill_last hw
    have hpass := hpre.pass hv.blocks hp hx hoff hlen hbuf
    rw [hall, hm] at hpass
    have hcount := hp.stored.freeCount hv.blocks
    have hneeds := hp.needs (n := k)
    rw [if_pos hw, List.append_nil] at hneeds
    refine ⟨w.fs, by rw [hp.total, hall], ⟨hp.ready.blocks, hpass, ?_, fun h1 => Or.inl ?_⟩⟩
    · rw [hneeds, ← hcount]
      split <;> rfl
    · rwa [hp.pointer_table (τ := .indir1) trivial] at h1
  | @pass x p base start v w f hp hw _ ih =>
    obtain ⟨k, rfl⟩ : ∃ l, k = l + 1 := ⟨k - 1, by omega⟩
    have hstart := hpre.start_eq hp hx hoff
    obtain ⟨hall, hroom⟩ := hp.fill_pass hw
    have hnext : n + (1024 - start) = 1024 * (x + 1) := by omega
    have hpass := hpre.pass hv.blocks hp hx hoff hlen hbuf
    rw [hall, hnext] at hpass
    have hlenw := hp.len
    rw [hall] at hlenw
    have hcount := hp.stored.freeCount hv.blocks
    have hneeds := hp.needs (n := k)
    rw [if_neg hw] at hneeds
    have hlength : (v.fs.needs inum (k + 1) x v.offset v.len).length =
        (if v.fs.pointer inum (dataSlot x) = 0 then 1 else 0) +
          (w.fs.needs inum k (x + 1) (resume (x + 1) w).offset w.len).length := by
      rw [hneeds, List.length_append]
      split <;> rfl
    -- the rest of the buffer starts at the next block
    have hbuf' : ∀ y < w.len, w.buf y = D (1024 * (x + 1) + y) := by
      intro y hy
      rw [hp.buf, hall]
      show v.buf (1024 - start + y) = _
      rw [hbuf _ (by omega), ← hnext, Nat.add_assoc]
    obtain ⟨t, rfl, hgrown⟩ := ih (n := 1024 * (x + 1)) (k := k) (hp.ready.resume _) (by rwa [resume_fs])
      (by omega) (by omega) (by rw [resume_len]; omega) (by rw [resume_len]; omega)
      (by rwa [resume_len, resume_buf]) (by omega)
      (by rw [resume_fs, resume_len]; omega) (by omega)
    rw [resume_fs, resume_len] at hgrown
    refine ⟨t, ?_, ⟨hgrown.blocks, hgrown.contents, ?_, fun h1 => ?_⟩⟩
    · rw [resume_total, resume_len, hp.total, hlenw, hall]
      congr 2
      omega
    · have := hgrown.freeCount
      omega
    · rw [← hp.pointer_table (τ := .indir1) trivial]
      exact hgrown.indir1 h1
  | done => omega

/-! ## Below block 262 -/

/-- The blocks that a write up to byte `m` takes, if the file holds `n` bytes. -/
def toTake (s : FS g) (i n m : ℕ) : ℕ :=
  dataBlocks m - dataBlocks n + if s.pointer i .indir1 = 0 ∧ 6144 < m then 1 else 0

theorem mem_way_dataSlot {y : ℕ} : dataSlot y ∈ way x ↔ y = x := by
  constructor
  · intro h
    rcases List.mem_append.1 h with h | h
    · exact absurd (isTable_of_mem_tables h) (not_isTable_dataSlot y)
    · exact dataSlot_injective (List.mem_singleton.1 h)
  · rintro rfl
    exact dataSlot_mem_way y

/-- The table that is missing below block 262 can only be `indir_1`. -/
theorem eq_indir1_of_mem_tables (hσ : σ ∈ tables x) (hx : x < 262) : σ = .indir1 ∧ 6 ≤ x := by
  unfold tables at hσ
  split_ifs at hσ
  · simp at hσ
  · exact ⟨List.mem_singleton.1 hσ, by omega⟩

/-- What a file takes to grow from `n` to `m` bytes: none of it is a level-1 block. -/
theorem taken_below {e : Slot → Bool} {k len : ℕ} (offset : ℕ) (hk : k + x = 65798) (hx : n / 1024 = x)
    (hoff : n % 1024 ≠ 0 → offset % 1024 = n % 1024) (hlen : 0 < len) (hm : n + len = m)
    (hle : m ≤ 262 * 1024) (he : ∀ y, e (dataSlot y) = true ↔ n ≤ 1024 * y) :
    (taken e k x offset len).length =
        dataBlocks m - dataBlocks n + (if e .indir1 = true ∧ 6144 < m then 1 else 0) ∧
      ∀ σ ∈ taken e k x offset len, ¬ σ.IsOuter := by
  induction k generalizing x n e offset len with
  | zero => omega
  | succ k ih =>
    have hself := he x
    have hstart : (if e (dataSlot x) = true then 0 else offset % 1024) = n % 1024 := by
      split_ifs with h
      · have := hself.1 h
        omega
      · have := mt hself.2 h
        exact hoff (by omega)
    have hx262 : x < 262 := by omega
    have hempty : e (dataSlot x) = true ↔ n % 1024 = 0 := hself.trans (by omega)
    have hlength : ((way x).filter e).length =
        (if n % 1024 = 0 then 1 else 0) + if e .indir1 = true ∧ 6 ≤ x then 1 else 0 := by
      unfold way tables
      by_cases hx6 : x < 6
      · simp only [if_pos hx6, List.nil_append, List.filter_cons, List.filter_nil, hempty,
          not_le.2 hx6, and_false, if_false]
        split_ifs <;> rfl
      · simp only [if_neg hx6, if_pos hx262, List.cons_append, List.nil_append, List.filter_cons,
          List.filter_nil, hempty, not_lt.1 hx6, and_true]
        split_ifs <;> rfl
    have houter : ∀ σ ∈ (way x).filter e, ¬ σ.IsOuter := by
      intro σ hσ
      rcases List.mem_append.1 (List.mem_of_mem_filter hσ) with hσ | hσ
      · obtain ⟨rfl, -⟩ := eq_indir1_of_mem_tables hσ hx262
        exact id
      · obtain rfl := List.mem_singleton.1 hσ
        unfold dataSlot
        split_ifs <;> exact id
    rw [taken, hstart]
    by_cases hlast : len ≤ 1024 - n % 1024
    · rw [if_pos hlast, List.append_nil, hlength, dataBlocks, dataBlocks]
      refine ⟨?_, houter⟩
      rw [if_congr (and_congr_right' (show 6 ≤ x ↔ 6144 < m by omega)) rfl rfl]
      split_ifs <;> omega
    · rw [if_neg hlast]
      -- the rest starts at the next block
      have hrest : ∀ y, (e (dataSlot y) && !(way x).contains (dataSlot y)) = true ↔ 1024 * (x + 1) ≤ 1024 * y := by
        intro y
        simp only [Bool.and_eq_true, Bool.not_eq_true', List.contains_eq_mem, decide_eq_false_iff_not,
          mem_way_dataSlot, he y]
        omega
      have hone : (e .indir1 && !(way x).contains .indir1) = true ↔ e .indir1 = true ∧ x < 6 := by
        by_cases hx6 : x < 6
        · simp [way, tables, dataSlot, hx6]
        · simp [indir1_mem_tables (not_lt.1 hx6) hx262, way, hx6]
      obtain ⟨hcount, hnone⟩ := ih (x := x + 1) (n := 1024 * (x + 1))
        (e := fun σ => e σ && !(way x).contains σ) _ (by omega) (by omega)
        (fun h => absurd (Nat.mul_mod_right 1024 (x + 1)) h) (Nat.sub_pos_of_lt (not_le.1 hlast)) (by omega) hrest
      rw [if_congr (and_congr_left' (c := 6144 < m) hone) rfl rfl] at hcount
      rw [List.length_append, hlength, hcount]
      refine ⟨?_, fun σ hσ => (List.mem_append.1 hσ).elim (houter σ) (hnone σ)⟩
      unfold dataBlocks
      cases e .indir1 <;> simp only [Bool.false_eq_true, true_and, false_and, if_false] <;>
        split_ifs <;> omega

end FS

end Fsx600
