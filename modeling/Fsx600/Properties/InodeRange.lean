import Fsx600.Spec.Effects
import Fsx600.Spec.Fresh

/-!
# Inode numbers and the size of the image

`mkfs-x6` makes one inode for every four blocks; `get_free_inode` looks through 64 of them,
whatever the image.  The two agree on images of 196 to 259 blocks.  On a smaller one the
search runs on past the inode region once that is full, and on a larger one it stops short.

No call ever sets a bit of the inode map from 64 on, so what happens in a state can be read
off its first 64 bits.
-/

namespace Fsx600

open Checked Function GuardedRun Mkfs

namespace FS

variable {g : Layout} {s s' : FS g}

/-- The inode that is handed out is the lowest free one. -/
theorem getFreeInode_least {i : ℕ} (h : s.getFreeInode = .ok (some (i, s'))) :
    i < 64 ∧ s.inodeMap i = false ∧ ∀ k < i, s.inodeMap k = true := by
  unfold getFreeInode at h
  rw [bind_eq_ok] at h
  obtain ⟨found, hf, h⟩ := h
  rw [pure_eq_ok] at h
  obtain ⟨k, rfl, hk⟩ := Option.map_eq_some_iff.1 h
  obtain rfl : k = i := congrArg Prod.fst hk
  obtain ⟨-, hlt, -, hclear, hleast⟩ := FirstFit.scan_eq_some hf
  exact ⟨by omega, hclear, fun x hx => hleast x (Nat.zero_le x) hx⟩

theorem getFreeInode_full (h : s.getFreeInode = .ok none) : ∀ k < 64, s.inodeMap k = true := by
  rcases getFreeInode_ok h with ⟨-, hfull⟩ | ⟨k, -, -, hk⟩
  · exact hfull
  · simp at hk

/-- What is allocated has a place in the region, and nothing that has been made for the image
is held back: `n` is the number of blocks that `mkfs-x6` was given. -/
structure InodesMatch (n : ℕ) (s : FS g) : Prop where
  inside : ∀ i s', s.getFreeInode = .ok (some (i, s')) → i < g.numInodes
  full : s.getFreeInode = .ok none → ∀ i < n / 4, s.inodeMap i = true

/-- A free inode that is both in the region and among the first 64; or all of these are taken,
and `mkfs-x6` made no more. -/
def InodesFit (n : ℕ) (s : FS g) : Prop :=
  (∃ i < 64, i < g.numInodes ∧ s.inodeMap i = false) ∨ (∀ i < 64, s.inodeMap i = true) ∧ n / 4 ≤ 64

theorem InodesFit.inodesMatch {n : ℕ} (h : InodesFit n s) : InodesMatch n s := by
  rcases h with ⟨i, hi64, hi, hclear⟩ | ⟨hfull, hn⟩
  · refine ⟨fun k s' hk => ?_, fun hnone => ?_⟩
    · obtain ⟨-, -, hleast⟩ := getFreeInode_least hk
      have hki : k ≤ i := by
        by_contra hlt
        exact Bool.false_ne_true (hclear.symm.trans (hleast i (by omega)))
      omega
    · exact absurd (hclear.symm.trans (getFreeInode_full hnone i hi64)) Bool.false_ne_true
  · refine ⟨fun k s' hk => ?_, fun _ i hi => hfull i (by omega)⟩
    obtain ⟨hk64, hclear, -⟩ := getFreeInode_least hk
    exact absurd (hclear.symm.trans (hfull k hk64)) Bool.false_ne_true

theorem InodesMatch.inodesFit {n : ℕ} (h : InodesMatch n s) (hbits : 64 ≤ g.inodeBits)
    (hlow : ∀ i, 64 ≤ i → s.inodeMap i = false) : InodesFit n s := by
  have hret : Returns s.getFreeInode := by
    unfold getFreeInode
    exact (FirstFit.scan_returns (by omega)).bind fun _ _ => returns_ok _
  obtain ⟨o, ho⟩ := hret
  cases o with
  | some x =>
    obtain ⟨i, s'⟩ := x
    obtain ⟨hi64, hclear, -⟩ := getFreeInode_least ho
    exact Or.inl ⟨i, hi64, h.inside i s' ho, hclear⟩
  | none =>
    refine Or.inr ⟨getFreeInode_full ho, ?_⟩
    by_contra hn
    exact Bool.false_ne_true ((hlow 64 le_rfl).symm.trans (h.full ho 64 (by omega)))

/-- No step of an operation sets a bit from 64 on. -/
theorem kept_low : Kept fun _ _ _ (s : FS g) => ∀ i, 64 ≤ i → s.inodeMap i = false where
  takeInode := fun {_ _ _ s k} h hk i hi => by
    show update s.inodeMap k true i = false
    rw [update_of_ne (by omega)]
    exact h i hi
  dropInode := fun {_ _ _ s k} h i hi => by
    show update s.inodeMap k false i = false
    rw [update_apply]
    split
    · rfl
    · exact h i hi
  markBlock := fun h _ => h
  clearBlock := fun h _ => h
  aheadBlock := id
  setInode := id
  writeInodeMap := id
  writeBlockMap := id
  writeAllInodes := id
  putBlock := id

end FS

open FS

variable {n : ℕ}

theorem inodes_ge_of_le (h : Formattable n) (hn : 196 ≤ n) : 64 ≤ (layout h).numInodes := by
  show 64 ≤ 16 * nInoBlks n
  unfold nInoBlks divRoundUp nInos
  omega

theorem inodeBits_ge (h : Formattable n) : 64 ≤ (layout h).inodeBits := by
  have := nInoMapBlks_pos h
  show 64 ≤ 8192 * nInoMapBlks n
  omega

/-- On an image of the right size the inodes fit in every state. -/
theorem inodesFit_of_size (h : Formattable n) (h1 : 196 ≤ n) (h2 : n ≤ 259) (s : FS (layout h)) :
    s.InodesFit n := by
  have := inodes_ge_of_le h h1
  by_cases hfull : ∀ i < 64, s.inodeMap i = true
  · exact Or.inr ⟨hfull, by omega⟩
  · push Not at hfull
    obtain ⟨i, hi, hclear⟩ := hfull
    exact Or.inl ⟨i, hi, by omega, by simpa using hclear⟩

theorem inodesMatch_iff (h : Formattable n) (t : UInt32) (s : FS (layout h))
    (hrun : Run Step (fun _ _ => True) (fresh h t) s) : s.InodesMatch n ↔ s.InodesFit n := by
  have hlow : ∀ i, 64 ≤ i → s.inodeMap i = false :=
    hrun.invariant (P := fun u => ∀ i, 64 ≤ i → u.inodeMap i = false)
      (fun i hi => Bool.eq_false_iff.2 fun hset => by
        have := (inodeMap_fresh h t i).1 hset
        omega)
      fun _ _ _ hu _ ⟨_, _, hstep⟩ => kept_low.exec hu hstep
  exact ⟨fun hm => hm.inodesFit (inodeBits_ge h) hlow, InodesFit.inodesMatch⟩

/-- **Inode allocation and the inode region** in every state of every run: they match exactly
when the inodes fit, and on an image of 196 to 259 blocks they always do. -/
theorem inodesMatch_of_run (h : Formattable n) (t : UInt32) (s : FS (layout h))
    (hrun : Run Step (fun _ _ => True) (fresh h t) s) :
    (s.InodesMatch n ↔ s.InodesFit n) ∧ (196 ≤ n → n ≤ 259 → s.InodesMatch n) :=
  ⟨inodesMatch_iff h t s hrun, fun h1 h2 => (inodesFit_of_size h h1 h2 s).inodesMatch⟩

/-- The path of file `i`: `/a`, `/b` and so on. -/
def filePath (i : ℕ) : Path :=
  if h : 0 ∉ [47, UInt8.ofNat (97 + i)] then ⟨_, h⟩ else ⟨[], by decide⟩

/-- `mknod` of `k` files one after another. -/
def filesRun (k : ℕ) : List Call :=
  (List.range k).map fun i => .mknod (filePath i) 0x81A4

/-- Three files on an image of 256 blocks. -/
theorem inodesMatch_of_filesRun : ∃ s,
    (fresh formattable_256 0).execAll ⟨1000, 1000, 0⟩ (filesRun 3) = .ok s ∧ s.InodesMatch 256 := by
  have hend : endsIn (fun _ => true)
      ((fresh formattable_256 0).execAll ⟨1000, 1000, 0⟩ (filesRun 3)) = true := by
    decide +kernel
  obtain ⟨s, hs, -⟩ := exists_of_endsIn hend
  exact ⟨s, hs, (inodesMatch_of_run formattable_256 0 s
    (run_of_execAll hs fun _ _ _ => trivial)).2 (by decide) (by decide)⟩

/-- On an image of 64 blocks the inode number after 14 files is 16. -/
theorem not_inodesMatch_of_run : ¬ ∀ (n : ℕ) (h : Formattable n) (t : UInt32) (s : FS (layout h)),
    Run Step (fun _ _ => True) (fresh h t) s → s.InodesMatch n := by
  intro hall
  have hend : endsIn (fun s => (List.range 16).all s.inodeMap && !s.inodeMap 16)
      ((fresh formattable_64 0).execAll ⟨1000, 1000, 0⟩ (filesRun 14)) = true := by
    decide +kernel
  obtain ⟨s, hs, htest⟩ := exists_of_endsIn hend
  rw [Bool.and_eq_true, List.all_eq_true, Bool.not_eq_true'] at htest
  have hrun : Run Step (fun _ _ => True) (fresh formattable_64 0) s := run_of_execAll hs fun _ _ _ => trivial
  have hsize : (layout formattable_64).numInodes = 16 := rfl
  rcases (inodesMatch_iff formattable_64 0 s hrun).1 (hall 64 formattable_64 0 s hrun) with
    ⟨i, -, hi, hclear⟩ | ⟨hfull, -⟩
  · have hset := htest.1 i (List.mem_range.2 (by omega))
    exact Bool.false_ne_true (hclear.symm.trans hset)
  · exact Bool.false_ne_true (htest.2.symm.trans (hfull 16 (by omega)))

end Fsx600
