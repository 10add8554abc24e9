import Fsx600.Spec.Reading
import Fsx600.Properties.Allocation

/-!
# Reading inside a file

A read that ends before the end of the file comes to mapped data slots only.  So it returns
what it was asked for, and the bytes are those of the file.  Nothing else is needed of the
state: not that its blocks are sound, nor that its directories form a tree.
-/

namespace Fsx600

open Checked Function GuardedRun Mkfs

namespace FS

variable {g : Layout} {s : FS g} {path : Path} {i x len offset : ℕ}

/-- Data slot `x` of the file `i` is mapped, through blocks of the image, to a block of the
image. -/
def Mapped (s : FS g) (i x : ℕ) : Prop :=
  s.pointer i (dataSlot x) ≠ 0 ∧ ∀ σ ∈ way x, (s.pointer i σ).toNat < g.nblks

instance (s : FS g) (i x : ℕ) : Decidable (s.Mapped i x) := inferInstanceAs (Decidable (_ ∧ _))

theorem Mapped.lt (h : s.Mapped i x) : x < 65798 := lt_of_pointer_dataSlot h.1

theorem Mapped.fetch (h : s.Mapped i x) :
    s.fetch (s.inodes i) x = .ok (s.disk (s.pointer i (dataSlot x)).toNat) :=
  fetch_of_way (pointer_tables_ne_zero h.1) h.2

/-- What `fs_read` takes for a byte of the file is that byte. -/
theorem Mapped.byteAt (h : s.Mapped i (x / 1024)) : s.byteAt i x = some (s.fetched (s.inodes i) x) := by
  unfold FS.byteAt fetched
  rw [h.fetch]
  exact if_neg h.1

/-- **A read inside a file** returns what it was asked for, and the bytes are those of the
file. -/
theorem fsRead_inside (hfinds : s.Finds path i) (hf : s.isDir i = false)
    (hmap : ∀ x, ((1024 * x : ℕ) : ℤ) < (s.inodes i).size.toInt → s.Mapped i x)
    (hlt : ((offset + len : ℕ) : ℤ) < (s.inodes i).size.toInt) (buf : ℕ → UInt8) :
    ∃ buf', s.fsRead path buf len offset = .ok (len, buf') ∧
      ∀ x < len, s.byteAt i (offset + x) = some (buf' x) := by
  have hsize := Int32.toInt_lt (s.inodes i).size
  have hlast := (hmap ((offset + len) / 1024) (by omega)).lt
  have hend : readEnd (s.inodes i).size len offset = offset + len := by
    unfold readEnd
    omega
  have hx : readIndex offset = (offset / 1024 : ℕ) := readIndex_of_lt (by omega)
  have hstart : Loaded (s.fetched (s.inodes i)) buf (s.inodes i).size len offset (offset / 1024 * 1024)
      (ReadVars.startAt ⟨buf, len, 0, 0⟩ (offset / 1024)) := loaded_start (by omega)
  have hret : Returns (s.readSlots (s.inodes i) offset (65798 - offset / 1024) (offset / 1024)
      (ReadVars.startAt ⟨buf, len, 0, 0⟩ (offset / 1024))) := by
    refine (readSlots_returns_iff hstart).2 fun y _ _ hy => ?_
    exact ⟨_, (hmap y (by omega)).fetch⟩
  obtain ⟨f, hret⟩ := hret
  have hloaded := loaded_readSlots hstart hret
  rw [hend, min_eq_left (by omega)] at hloaded
  have hcopied : f.vars.numCopied = len := by
    rw [hloaded.numCopied, Nat.add_sub_cancel_left]
  refine ⟨update f.vars.buf len 0, ?_, fun x hx => ?_⟩
  · rw [hfinds.fsRead_eq hf hx (by omega), hret, ok_bind, hcopied]
  · rw [(hmap ((offset + x) / 1024) (by omega)).byteAt, update_of_ne hx.ne, hloaded.bytes, hcopied,
      if_pos hx]

/-- A file of 7000 bytes, read from byte 5000 on across the end of its direct blocks. -/
theorem fsRead_inside_7000 : ∃ s buf', (fresh formattable_256 0).guardedAll ⟨1000, 1000, 0⟩ FilesGuard
    [.mknod ⟨[47, 97], by decide⟩ 0x81A4, .write ⟨[47, 97], by decide⟩ UInt8.ofNat 7000 0] = some s ∧
      s.fsRead ⟨[47, 97], by decide⟩ (fun _ => 0) 1500 5000 = .ok (1500, buf') ∧
        ∀ x < 1500, s.byteAt 2 (5000 + x) = some (buf' x) := by
  have hend : ((fresh formattable_256 0).guardedAll ⟨1000, 1000, 0⟩ FilesGuard
      [.mknod ⟨[47, 97], by decide⟩ 0x81A4,
        .write ⟨[47, 97], by decide⟩ UInt8.ofNat 7000 0]).any (fun s => !s.isDir 2 &&
          (s.inodes 2).size == 7000 && decide (s.resolve 1 (Path.tokens ⟨[47, 97], by decide⟩) = .inr 2) &&
            (List.range 7).all fun x => s.Mapped 2 x) = true := by
    decide +kernel
  obtain ⟨s, hs, htest⟩ := (Option.any_eq_true _ _).mp hend
  simp only [Bool.and_eq_true, Bool.not_eq_true', beq_iff_eq, decide_eq_true_eq, List.all_eq_true,
    List.mem_range] at htest
  obtain ⟨⟨⟨hf, hsize⟩, hr⟩, hmap⟩ := htest
  have hwf : Wf s := wf_of_run (run_of_guardedAll hs)
  have hfinds : s.Finds ⟨[47, 97], by decide⟩ 2 :=
    WellFormed.finds ⟨hwf, by decide⟩ (by decide +kernel) hr
  have hint : (s.inodes 2).size.toInt = 7000 := by
    rw [hsize]
    rfl
  have hlt : ((5000 + 1500 : ℕ) : ℤ) < (s.inodes 2).size.toInt := by omega
  obtain ⟨buf', hread, hbytes⟩ := fsRead_inside hfinds hf (fun x hx => hmap x (by omega)) hlt fun _ => 0
  exact ⟨s, buf', hs, hread, hbytes⟩

end FS

end Fsx600
