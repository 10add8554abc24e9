import Fsx600.Properties.ReadInside
import Fsx600.Properties.ReadBounds

/-!
# The caller's buffer

Every exit of `fs_read` that comes past the loops stores a NUL where `buf` points by then,
which is right behind the last byte it has copied (`Finds.fsRead_cases`).  A caller that
offers `len` bytes and gets them all finds the byte behind its buffer overwritten.

* `fsRead_inBuffer_iff`: which reads leave that byte as it was;
* `not_fsRead_inBuffer`: one byte of a file of one byte, read into a buffer of one byte.
-/

namespace Fsx600

open Checked Function GuardedRun Mkfs

namespace FS

variable {g : Layout} {s : FS g} {path : Path} {i len offset : ℕ} {r : ℤ} {buf buf' : ℕ → UInt8}

/-- A read into `len` bytes that returned `r` has stored `r` bytes at most. -/
structure InBuffer (buf buf' : ℕ → UInt8) (len : ℕ) (r : ℤ) : Prop where
  le_len : r ≤ len
  unchanged : ∀ x : ℕ, r ≤ x → buf' x = buf x

/-- Memory after a copy of `n` bytes and the NUL: what is behind is as it was if that byte was
one already. -/
theorem forall_update_nul_iff {f : ℕ → UInt8} {n : ℕ} (hf : ∀ x, n ≤ x → f x = buf x) :
    (∀ x, n ≤ x → update f n 0 x = buf x) ↔ buf n = 0 := by
  constructor
  · intro h
    have hn := h n le_rfl
    rw [update_self] at hn
    exact hn.symm
  · intro h x hx
    rcases eq_or_ne x n with rfl | hne
    · rw [update_self, h]
    · rw [update_of_ne hne, hf x hx]

/-- A read of a file that returns: it started past all data slots, or it copied what there was
and stored a NUL behind it. -/
theorem Finds.fsRead_cases (h : s.Finds path i) (hf : s.isDir i = false)
    (hsize : (s.inodes i).size.toInt ≤ 65798 * 1024)
    (hr : s.fsRead path buf len offset = .ok (r, buf')) :
    ((readIndex offset < 0 ∨ 65798 ≤ readIndex offset) ∧ r = 0 ∧ buf' = buf) ∨
    ∃ f : ℕ → UInt8, (0 ≤ readIndex offset ∧ readIndex offset < 65798) ∧
      (∀ x, readCount (s.inodes i).size len offset ≤ x → f x = buf x) ∧
      r = readCount (s.inodes i).size len offset ∧
      buf' = update f (readCount (s.inodes i).size len offset) 0 := by
  by_cases hpast : readIndex offset < 0 ∨ 65798 ≤ readIndex offset
  · rw [h.fsRead_past hpast] at hr
    obtain ⟨rfl, rfl⟩ := Prod.mk.inj (Except.ok.inj hr)
    exact Or.inl ⟨hpast, rfl, rfl⟩
  · rw [not_or, not_lt, not_le] at hpast
    obtain ⟨x, hx⟩ := Int.eq_ofNat_of_zero_le hpast.1
    have hlt : x < 65798 := by omega
    have hle := le_of_readIndex hx
    rw [h.fsRead_eq hf hx hlt, bind_eq_ok] at hr
    obtain ⟨f, hslots, hr⟩ := hr
    obtain ⟨rfl, rfl⟩ := Prod.mk.inj (Except.ok.inj hr)
    have hloaded := loaded_readSlots (loaded_start hle) hslots
    -- the loop stops at the end of the copying, or behind the last data slot with nothing to copy
    have hcount : f.vars.numCopied = readCount (s.inodes i).size len offset := by
      rw [hloaded.numCopied, readCount_eq, Nat.add_sub_cancel' hlt.le]
      unfold readEnd
      omega
    refine Or.inr ⟨f.vars.buf, hpast, fun y hy => ?_, congrArg Nat.cast hcount, by rw [hcount]⟩
    rw [hloaded.bytes, if_neg (by omega)]

/-- **The buffer.**  A read of a file stores nothing behind the bytes it returns exactly when it
starts past all data slots or the byte behind them was a NUL. -/
theorem fsRead_inBuffer_iff (hfinds : s.Finds path i) (hf : s.isDir i = false)
    (hmap : ∀ x, ((1024 * x : ℕ) : ℤ) < (s.inodes i).size.toInt → s.Mapped i x)
    (h : s.fsRead path buf len offset = .ok (r, buf')) :
    InBuffer buf buf' len r ↔
      readIndex offset < 0 ∨ 65798 ≤ readIndex offset ∨
        buf (readCount (s.inodes i).size len offset) = 0 := by
  have hsize : (s.inodes i).size.toInt ≤ 65798 * 1024 := by
    by_contra hlt
    exact absurd (hmap 65798 (by omega)).lt (lt_irrefl _)
  rcases hfinds.fsRead_cases hf hsize h with ⟨hpast, rfl, rfl⟩ | ⟨f, hin, hbytes, rfl, rfl⟩
  · refine iff_of_true ⟨by omega, fun _ _ => rfl⟩ ?_
    rw [← or_assoc]
    exact Or.inl hpast
  · rw [← or_assoc, or_iff_right (by omega), ← forall_update_nul_iff hbytes]
    constructor
    · exact fun hin x hx => hin.unchanged x (by omega)
    · refine fun hin => ⟨?_, fun x hx => hin x (by omega)⟩
      unfold readCount
      split <;> omega

/-- The file `/a` with the byte 7 in it. -/
def oneByteRun : List Call := [.mknod pathA 0x81A4, .write pathA (fun _ => 7) 1 0]

/-- Into a buffer of one byte, in memory that is full of NULs. -/
theorem fsRead_inBuffer_one : ∃ s buf', (fresh formattable_256 0).guardedAll ⟨1000, 1000, 0⟩ FilesGuard
    oneByteRun = some s ∧ s.fsRead pathA (fun _ => 0) 1 0 = .ok (1, buf') ∧
      InBuffer (fun _ => 0) buf' 1 1 := by
  have hend : ((fresh formattable_256 0).guardedAll ⟨1000, 1000, 0⟩ FilesGuard oneByteRun).any (fun s =>
      !s.isDir 2 && (s.inodes 2).size == 1 && decide (s.resolve 1 pathA.tokens = .inr 2) &&
        decide (s.Mapped 2 0) && match s.fsRead pathA (fun _ => 0) 1 0 with
          | .ok (r, _) => r == 1
          | .error _ => false) = true := by
    decide +kernel
  obtain ⟨s, hs, htest⟩ := (Option.any_eq_true _ _).mp hend
  simp only [Bool.and_eq_true, Bool.not_eq_true', beq_iff_eq, decide_eq_true_eq] at htest
  obtain ⟨⟨⟨⟨hf, hsize⟩, hr⟩, hmap⟩, hread⟩ := htest
  have hwf : Wf s := wf_of_run (run_of_guardedAll hs)
  have hfinds : s.Finds pathA 2 := WellFormed.finds ⟨hwf, by decide⟩ (by decide +kernel) hr
  have hint : (s.inodes 2).size.toInt = 1 := by
    rw [hsize]
    rfl
  split at hread
  · next r buf' h =>
    obtain rfl := beq_iff_eq.1 hread
    refine ⟨s, buf', hs, h, (fsRead_inBuffer_iff hfinds hf (fun x hx => ?_) h).2 (Or.inr (Or.inr rfl))⟩
    obtain rfl : x = 0 := by omega
    exact hmap
  · exact absurd hread Bool.false_ne_true

/-- In memory that is not: the byte behind the buffer is overwritten. -/
theorem not_fsRead_inBuffer : ∃ s buf', (fresh formattable_256 0).guardedAll ⟨1000, 1000, 0⟩ FilesGuard
    oneByteRun = some s ∧ s.Finds pathA 2 ∧ s.isDir 2 = false ∧ (s.inodes 2).size = 1 ∧ s.Mapped 2 0 ∧
      s.fsRead pathA (fun _ => 1) 1 0 = .ok (1, buf') ∧ buf' 1 = 0 ∧
      ¬ InBuffer (fun _ => 1) buf' 1 1 := by
  have hend : ((fresh formattable_256 0).guardedAll ⟨1000, 1000, 0⟩ FilesGuard oneByteRun).any (fun s =>
      !s.isDir 2 && (s.inodes 2).size == 1 && decide (s.resolve 1 pathA.tokens = .inr 2) &&
        decide (s.Mapped 2 0) && match s.fsRead pathA (fun _ => 1) 1 0 with
          | .ok (r, buf') => r == 1 && buf' 1 == 0
          | .error _ => false) = true := by
    decide +kernel
  obtain ⟨s, hs, htest⟩ := (Option.any_eq_true _ _).mp hend
  simp only [Bool.and_eq_true, Bool.not_eq_true', beq_iff_eq, decide_eq_true_eq] at htest
  obtain ⟨⟨⟨⟨hf, hsize⟩, hr⟩, hmap⟩, hread⟩ := htest
  have hwf : Wf s := wf_of_run (run_of_guardedAll hs)
  have hfinds : s.Finds pathA 2 := WellFormed.finds ⟨hwf, by decide⟩ (by decide +kernel) hr
  split at hread
  · next r buf' h =>
    rw [Bool.and_eq_true, beq_iff_eq, beq_iff_eq] at hread
    obtain ⟨rfl, hnul⟩ := hread
    refine ⟨s, buf', hs, hfinds, hf, hsize, hmap, h, hnul, fun hin => ?_⟩
    exact absurd (hnul.symm.trans (hin.unchanged 1 le_rfl)) (by decide)
  · exact absurd hread Bool.false_ne_true

end FS

end Fsx600
