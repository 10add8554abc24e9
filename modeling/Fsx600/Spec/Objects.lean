import Fsx600.Spec.Store
import Fsx600.Spec.Intact
import Fsx600.Spec.Appending

/-!
# Inodes as objects

The object of an inode is its mode and the bytes of its file.  `Exact` says that the data blocks
of a file are those that its size takes, so that the bytes are all there; this is how files are
that are only written at their ends.

Every operation changes one inode at most.  The others are spared by it (`Spared`): they keep
their mode, and files keep their size and their contents as well.
-/

namespace Fsx600

open Checked Function

namespace FS

variable {g : Layout} {s t u : FS g} {c : Context} {path : Path} {i k x : ℕ} {r : ℤ}

/-- The bytes of a file; a directory has none. -/
def contents (s : FS g) (i : ℕ) : List UInt8 :=
  if s.isDir i = true then []
  else (List.range (s.inodes i).size.toInt.toNat).map fun x => (s.byteAt i x).getD 0

/-- The object of an inode. -/
def object (s : FS g) (i : ℕ) : Object := ⟨(s.inodes i).mode, s.contents i⟩

/-- The data blocks of the file are those that its size takes. -/
structure Exact (s : FS g) (i : ℕ) : Prop where
  nonneg : 0 ≤ (s.inodes i).size.toInt
  mapped : ∀ y, s.pointer i (dataSlot y) ≠ 0 ↔ ((1024 * y : ℕ) : ℤ) < (s.inodes i).size.toInt

theorem isDir_object (s : FS g) (i : ℕ) : (s.object i).isDir = s.isDir i := rfl

theorem bytes_of_isDir (h : s.isDir i = true) : (s.object i).bytes = [] :=
  if_pos h

theorem bytes_of_file (h : s.isDir i = false) : (s.object i).bytes =
    (List.range (s.inodes i).size.toInt.toNat).map fun x => (s.byteAt i x).getD 0 :=
  if_neg (by simp [h])

theorem length_bytes (h : s.isDir i = false) :
    (s.object i).bytes.length = (s.inodes i).size.toInt.toNat := by
  rw [bytes_of_file h, List.length_map, List.length_range]

/-- An inode with no bytes and no blocks. -/
theorem exact_of_empty (hsize : (s.inodes i).size = 0) (h : (s.inodes i).Empty) : s.Exact i := by
  have hzero : (s.inodes i).size.toInt = 0 := by
    rw [hsize]
    rfl
  refine ⟨hzero.ge, fun y => ?_⟩
  rw [hzero]
  exact iff_of_false (not_not.2 (h.pointer _ _)) (by omega)

/-- The bytes of an exact file, one by one. -/
theorem Exact.getElem?_bytes (h : s.Exact i) (hf : s.isDir i = false)
    (hx : (x : ℤ) < (s.inodes i).size.toInt) : (s.object i).bytes[x]? = s.byteAt i x := by
  have hp : s.pointer i (dataSlot (x / 1024)) ≠ 0 := by
    refine (h.mapped _).2 ?_
    omega
  have hrange : (List.range (s.inodes i).size.toInt.toNat)[x]? = some x :=
    List.getElem?_range (by omega)
  rw [bytes_of_file hf, List.getElem?_map, hrange, Option.map_some, byteAt_of_pointer hp]
  rfl

/-- A data slot is mapped if the first byte of its block is there. -/
theorem pointer_ne_zero_iff_byteAt {y : ℕ} :
    s.pointer i (dataSlot y) ≠ 0 ↔ (s.byteAt i (1024 * y)).isSome = true := by
  have hy : 1024 * y / 1024 = y := Nat.mul_div_cancel_left y (by decide)
  constructor
  · intro hp
    rw [← hy] at hp
    rw [byteAt_of_pointer hp]
    rfl
  · intro hb h0
    rw [← hy] at h0
    rw [byteAt_of_pointer_eq_zero h0] at hb
    exact absurd hb (by simp)

/-! ## Inodes that are spared -/

/-- The mode of the inode `k` is as it was, and so are its size and its bytes if it is a file. -/
structure Spared (k : ℕ) (s t : FS g) : Prop where
  mode : (t.inodes k).mode = (s.inodes k).mode
  intact : s.isDir k = false → Intact k s t

theorem Spared.refl (k : ℕ) (s : FS g) : Spared k s s := ⟨rfl, fun _ => .refl k s⟩

theorem Spared.isDir (h : Spared k s t) : t.isDir k = s.isDir k := by
  rw [FS.isDir, h.mode, FS.isDir]

theorem Spared.trans (h : Spared k s t) (h' : Spared k t u) : Spared k s u :=
  ⟨h'.mode.trans h.mode, fun hf => (h.intact hf).trans (h'.intact (h.isDir.trans hf))⟩

/-- What the contents depend on. -/
theorem contents_congr (hd : t.isDir k = s.isDir k) (h : s.isDir k = false → Intact k s t) :
    t.contents k = s.contents k := by
  unfold contents
  rw [hd]
  split
  · rfl
  · next hf =>
    have hintact := h (Bool.of_not_eq_true hf)
    rw [hintact.size]
    exact List.map_congr_left fun x _ => by rw [hintact.byteAt]

theorem Spared.object (h : Spared k s t) : t.object k = s.object k := by
  rw [FS.object, FS.object, h.mode, contents_congr h.isDir h.intact]

theorem Exact.of_intact (he : s.Exact k) (h : Intact k s t) : t.Exact k := by
  refine ⟨by rw [h.size]; exact he.nonneg, fun y => ?_⟩
  rw [pointer_ne_zero_iff_byteAt, h.byteAt, h.size, ← pointer_ne_zero_iff_byteAt]
  exact he.mapped y

theorem Spared.exact (h : Spared k s t) (hf : s.isDir k = false) (he : s.Exact k) : t.Exact k :=
  he.of_intact (h.intact hf)

section Changes

variable (hwf : Wf s) (hk : s.inodeMap k = true)
include hwf hk

theorem spared_writeInodeMap : Spared k s s.writeInodeMap :=
  ⟨rfl, fun hf => intact_writeInodeMap hwf hk hf⟩

theorem Created.spared {mode : UInt32} {p j n : ℕ} {name : Name} {fresh : Option ℕ}
    (h : Created c mode p j n name fresh s t) : Spared k s t :=
  ⟨by rw [h.inodes, update_of_ne (h.ne_of_alloc hk)], fun hf => h.intact hwf hk hf⟩

theorem Removed.spared {p j i : ℕ} {e : Dirent} (h : Removed p j i e s t) (hki : k ≠ i) : Spared k s t :=
  ⟨by rw [h.inodes k hki], fun hf => h.intact hwf hk hf hki⟩

theorem Renamed.spared {p j i : ℕ} {new : Name} (h : Renamed c p j i new s t) : Spared k s t := by
  refine ⟨?_, fun hf => h.intact hwf hk hf⟩
  rw [h.inodes]
  exact field_update Inode.mode (by rfl) k

end Changes

section Files

variable (hs : s.SoundBlocks) (hk : s.inodeMap k = true)
include hs hk

theorem Truncated.spared {i : ℕ} (h : Truncated i s t) (hki : k ≠ i) : Spared k s t :=
  ⟨by rw [h.inodes k hki], fun hf => h.intact hs hk hf hki⟩

theorem Stored.spared {i n : ℕ} {σ : Slot} {p : UInt32} {b : Block} (h : Stored i σ p b n s t)
    (hki : k ≠ i) : Spared k s t :=
  ⟨by rw [h.inodes k hki], fun hf => h.intact hs hk hf hki⟩

/-- A change of the inode `i` that leaves its size and its pointers alone. -/
theorem intact_setInode {ino : Inode} (hsize : ino.size = (s.inodes i).size)
    (hd : ino.direct = (s.inodes i).direct) (h1 : ino.indir1 = (s.inodes i).indir1)
    (h2 : ino.indir2 = (s.inodes i).indir2) (hf : s.isDir k = false) :
    Intact k s (s.setInode i ino).writeAllInodes := by
  refine intact_of_disk hk hf ?_ ⟨?_, ?_, ?_⟩ fun _ _ hb => disk_writeAllInodes _ (hs.sound.used hb).1
  · exact field_update Inode.size hsize k
  · exact field_update Inode.direct hd k
  · exact field_update Inode.indir1 h1 k
  · exact field_update Inode.indir2 h2 k

/-- Another inode, or the same one with its mode. -/
theorem spared_setInode {ino : Inode} (hsize : ino.size = (s.inodes i).size)
    (hd : ino.direct = (s.inodes i).direct) (h1 : ino.indir1 = (s.inodes i).indir1)
    (h2 : ino.indir2 = (s.inodes i).indir2) (hmode : k = i → ino.mode = (s.inodes i).mode) :
    Spared k s (s.setInode i ino).writeAllInodes := by
  refine ⟨?_, fun hf => intact_setInode hs hk hsize hd h1 h2 hf⟩
  show (update s.inodes i ino k).mode = (s.inodes k).mode
  rcases eq_or_ne k i with rfl | hki
  · rw [update_self, hmode rfl]
  · rw [update_of_ne hki]

end Files

/-! ## Inodes that are changed -/

/-- **A new object** has no bytes. -/
theorem Created.object {mode : UInt32} {p j n : ℕ} {name : Name} {fresh : Option ℕ}
    (h : Created c mode p j n name fresh s t) : t.object n = ⟨mode, []⟩ := by
  have hmode : (t.inodes n).mode = mode := by rw [h.inodes, update_self, createdInode_mode]
  have hbytes : t.contents n = [] := by
    cases hd : sIsDir mode with
    | true => exact bytes_of_isDir (h.isDir_self.trans hd)
    | false =>
      obtain rfl : fresh = none := by
        rw [← Option.not_isSome_iff_eq_none, h.fresh_isSome, hd]
        exact Bool.false_ne_true
      refine (bytes_of_file (h.isDir_self.trans hd)).trans ?_
      rw [h.inodes, update_self]
      rfl
  rw [FS.object, hmode, hbytes]

theorem Created.exact {mode : UInt32} {p j n : ℕ} {name : Name} {fresh : Option ℕ}
    (h : Created c mode p j n name fresh s t) (hf : t.isDir n = false) : t.Exact n := by
  obtain rfl : fresh = none := by
    rw [← Option.not_isSome_iff_eq_none, h.fresh_isSome, ← h.isDir_self, hf]
    exact Bool.false_ne_true
  have hino : t.inodes n = newInode c mode (s.inodes n) := by rw [h.inodes, update_self, createdInode]
  exact exact_of_empty (by rw [hino]; rfl) (hino ▸ newInode_empty mode _)

/-- The first loop of `fs_truncate` clears the direct pointers if they are filled from the
first on. -/
theorem directAt_of_truncDirect {n k : ℕ} {ino ino' : Inode} (hnk : n + k = 6)
    (hlow : ∀ m < k, ino.directAt m = 0)
    (hgap : ∀ m, k ≤ m → ino.directAt m = 0 → ∀ m', m ≤ m' → ino.directAt m' = 0)
    (h : truncDirect n k s ino = .ok (t, ino')) (m : ℕ) : ino'.directAt m = 0 := by
  induction n generalizing k s ino with
  | zero =>
    obtain ⟨-, rfl⟩ := Prod.mk.inj (Except.ok.inj h)
    by_cases hm : m < k
    · exact hlow m hm
    · exact dif_neg (by omega)
  | succ n ih =>
    rw [truncDirect] at h
    split at h
    · next h0 =>
      obtain ⟨-, rfl⟩ := Prod.mk.inj (Except.ok.inj h)
      by_cases hm : m < k
      · exact hlow m hm
      · exact hgap k le_rfl h0 m (not_lt.1 hm)
    · rw [bind_eq_ok] at h
      obtain ⟨u, -, h⟩ := h
      have hset : ∀ l, (ino.setDirect k 0).directAt l = if l = k then 0 else ino.directAt l :=
        fun l => Inode.directAt_setDirect _ _ _ (by omega)
      refine ih (by omega) (fun l hl => ?_) (fun l hl h0 l' hl' => ?_) h
      · rw [hset]
        split
        · rfl
        · exact hlow l (by omega)
      · rw [hset, if_neg (by omega)] at h0 ⊢
        exact hgap l (by omega) h0 l' hl'

theorem directAt_of_fsTruncate (hr : s.resolve 1 path.tokens = .inr i) (hf : s.isDir i = false)
    (hgap : ∀ m, (s.inodes i).directAt m = 0 → ∀ m', m ≤ m' → (s.inodes i).directAt m' = 0)
    (h : s.fsTruncate path 0 = .ok (r, t)) (m : ℕ) : (t.inodes i).directAt m = 0 := by
  rw [fsTruncate, if_neg (not_not.2 rfl), bind_eq_ok] at h
  obtain ⟨o, ho, h⟩ := h
  rcases fsGetattr_ok ho with ⟨e, he, rfl⟩ | ⟨i', hi', rfl⟩
  · exact absurd (hr.symm.trans he) (by simp)
  obtain rfl := Sum.inr.inj (hr.symm.trans hi')
  dsimp only [fsSetSuperbockAttrs] at h
  rw [bind_eq_ok] at h
  obtain ⟨ino, hino, h⟩ := h
  obtain ⟨-, -, rfl⟩ := inode_ok hino
  rw [Int.toNat_natCast] at h
  have hmode : ¬ sIsDir (s.inodes i).mode = true := Bool.eq_false_iff.1 hf
  rw [if_neg hmode, bind_eq_ok] at h
  obtain ⟨⟨s₁, ino⟩, hdirect, h⟩ := h
  dsimp only at h
  rw [bind_eq_ok] at h
  obtain ⟨s₂, -, h⟩ := h
  rw [bind_eq_ok] at h
  obtain ⟨s₃, -, h⟩ := h
  obtain ⟨-, rfl⟩ := Prod.mk.inj (Except.ok.inj h)
  rw [inodes_writeAllInodes, inodes_setInode, update_self]
  exact directAt_of_truncDirect rfl (fun _ hm => absurd hm (Nat.not_lt_zero _)) (fun m _ => hgap m) hdirect m

/-- The direct pointers of an exact file are filled from the first on. -/
theorem Exact.directAt_eq_zero (h : s.Exact i) {m m' : ℕ} (h0 : (s.inodes i).directAt m = 0) (hle : m ≤ m') :
    (s.inodes i).directAt m' = 0 := by
  by_cases hm' : m' < 6
  · have hslot : ∀ {l}, l < 6 → s.pointer i (dataSlot l) = (s.inodes i).directAt l := fun hl => by
      rw [dataSlot, if_pos hl]
      rfl
    by_contra hne
    rw [← hslot hm'] at hne
    have hlt := (h.mapped m').1 hne
    refine (h.mapped m).2 (by omega) ?_
    rw [hslot (by omega), h0]
  · exact dif_neg hm'

/-- A truncated file has no bytes and no data blocks. -/
theorem Truncated.exact (hwf : Wf s) (hi : s.inodeMap i = true) (hf : s.isDir i = false) (he : s.Exact i)
    (hno : s.NoTables i) (h : Truncated i s t) (hdirect : ∀ m, (t.inodes i).directAt m = 0) : t.Exact i := by
  have hsize : (t.inodes i).size.toInt = 0 := by
    rw [h.size]
    rfl
  have hshort : (s.inodes i).size.toInt ≤ 6144 := by
    have h6 : ¬ s.pointer i (dataSlot 6) ≠ 0 := not_not.2 hno.1
    rw [he.mapped] at h6
    omega
  refine ⟨hsize.ge, fun y => ?_⟩
  rw [hsize]
  refine iff_of_false (not_not.2 ?_) (by omega)
  by_cases hy : y < 6
  · rw [dataSlot, if_pos hy]
    exact hdirect y
  · rcases h.pointer hwf hi hf (dataSlot y) with h0 | hsame
    · exact h0
    · rw [FS.pointer, hsame]
      have hnot : ¬ s.pointer i (dataSlot y) ≠ 0 := by
        rw [he.mapped]
        omega
      exact not_not.1 hnot

theorem Truncated.object (hf : s.isDir i = false) (h : Truncated i s t) :
    t.object i = { s.object i with bytes := [] } := by
  have hbytes : t.contents i = [] := by
    refine (bytes_of_file ((h.isDir i).trans hf)).trans ?_
    rw [h.size]
    rfl
  rw [FS.object, hbytes, h.mode]
  rfl

end FS

end Fsx600
