import Fsx600.Spec.Fresh
import Fsx600.Spec.Walk

/-!
# The checker's walk is exact

On a plausible image that the checker can load, `read-img` finds exactly the inodes that
can be reached from inode 1, and reports as unreachable exactly those others that the
inode map has in use; or it stops with the loop error, and it does so exactly when some
inode is met twice.

The checker keeps the size of the image in an `int`, and it takes the places of the maps
and of the inode region from the superblock without a look at that size.  `not_exact` has
a plausible image for each way in which this goes wrong.
-/

namespace Fsx600

namespace ReadImg

open Checked Function

variable {im : Image} {r : Survey}

/-! ## The survey -/

variable (im) in
/-- A survey is exact. -/
structure ExactSurvey (r : Survey) : Prop where
  /-- No inode number is appended twice. -/
  nodup : (r.search.list.map Entry.inum).Nodup
  /-- `head` stays within `inode_list`. -/
  length_le : r.search.list.length ≤ listSize im
  /-- The survey stops short exactly when an inode is met twice. -/
  stops_iff : r.unreachable = none ↔ MetTwice im
  /-- It stops short on the loop error. -/
  loopError : r.unreachable = none → r.search.LoopError
  /-- Otherwise `imap` is the set of inodes that can be reached. -/
  marked : r.unreachable ≠ none → ∀ i, r.search.imap i = true ↔ Reached im i
  /-- The unreachable inodes are listed in order. -/
  sorted : ∀ lost ∈ r.unreachable, lost.Pairwise (· < ·)
  /-- They are the inodes from 1 up that are in use and cannot be reached. -/
  mem_iff : ∀ lost ∈ r.unreachable, ∀ i,
    i ∈ lost ↔ 1 ≤ i ∧ i < regionInodes im ∧ inUse im i = true ∧ ¬Reached im i

variable (im) in
/-- The loop ends within as many iterations as the region has inodes, and the survey is exact. -/
def Exact : Prop :=
  ∃ r, (∀ fuel, regionInodes im < fuel → survey im fuel = .ok r) ∧ ExactSurvey im r

/-- A search that has visited all of its list has marked what can be reached. -/
theorem Search.Sound.marked_iff {s : Search} (hs : s.Sound im)
    (htrav : Traversal im s.list s.list.length) (i : ℕ) : s.imap i = true ↔ Reached im i := by
  rw [hs.marked, List.mem_map]
  constructor
  · rintro ⟨e, he, hi⟩
    exact ⟨e, htrav.mem_iff.mp he, hi⟩
  · rintro ⟨e, he, hi⟩
    exact ⟨e, htrav.mem_iff.mpr he, hi⟩

theorem exactSurvey_failed (hp : Plausible im) (hl : Loaded im) (hlost : r.unreachable = none)
    (h : Search.Finished im (true, r.search)) : ExactSurvey im r := by
  cases h with
  | failed hs hlog hmet =>
    refine ⟨hs.nodup, (lt_listSize hp hl hs.length_le).le, ?_, fun _ => hlog,
      fun h => absurd hlost h, ?_, ?_⟩
    · exact ⟨fun _ => hmet, fun _ => hlost⟩
    · simp [hlost]
    · simp [hlost]

theorem exactSurvey_done (hp : Plausible im) (hl : Loaded im)
    (hlost : r.unreachable = some ((List.range' 1 (regionInodes im - 1)).filter fun i =>
      !r.search.imap i && inUse im i))
    (h : Search.Finished im (false, r.search)) : ExactSurvey im r := by
  cases h with
  | done hs htrav =>
    have hmarked := hs.marked_iff htrav
    have hno := htrav.not_metTwice List.nodup_range
    have hsome : r.unreachable ≠ none := by simp [hlost]
    refine ⟨hs.nodup, (lt_listSize hp hl hs.length_le).le, ?_, fun h => absurd h hsome,
      fun _ => hmarked, ?_, ?_⟩
    · exact ⟨fun h => absurd h hsome, fun h => absurd h hno⟩
    · intro lost hmem
      obtain rfl := Option.some_inj.mp (hlost.symm.trans hmem)
      exact List.Pairwise.filter _ (List.pairwise_lt_range' 1)
    · intro lost hmem i
      obtain rfl := Option.some_inj.mp (hlost.symm.trans hmem)
      have htwo := hp.two_le
      have hmark : (!r.search.imap i) = true ↔ ¬Reached im i := by
        rw [← hmarked, Bool.not_eq_true', Bool.not_eq_true]
      rw [List.mem_filter, List.mem_range'_1, Bool.and_eq_true, hmark]
      constructor
      · rintro ⟨⟨hone, hlt⟩, hr, huse⟩
        exact ⟨hone, by omega, huse, hr⟩
      · rintro ⟨hone, hlt, huse, hr⟩
        exact ⟨⟨hone, by omega⟩, hr, huse⟩

/-- On a plausible image that the checker can load, the loop ends, each inode is appended at most
once, the loop error comes exactly when an inode is met twice, and otherwise the checker
finds what can be reached and lists what is in use and cannot be. -/
theorem survey_exact (hp : Plausible im) (hl : Loaded im) : Exact im := by
  obtain ⟨r, hsurvey, ⟨hlost, hfin⟩ | ⟨hlost, hfin⟩⟩ := survey_ok hp hl
  · exact ⟨r, hsurvey, exactSurvey_failed hp hl hlost hfin⟩
  · exact ⟨r, hsurvey, exactSurvey_done hp hl hlost hfin⟩

/-! ## An image with a file and a directory -/

/-- A directory in block `p`. -/
def dirInode (p : ℕ) : Inode :=
  { Inode.zero with mode := 0x41FF, direct := fun k => if k.val = 0 then .ofNat p else 0 }

theorem pointersInside_of_direct {ino : Inode} (hn : 0 < im.nblks)
    (hdirect : ∀ k, Inside im (ino.direct k)) (h1 : ino.indir1 = 0) (h2 : ino.indir2 = 0) :
    PointersInside im ino :=
  ⟨hdirect, by rwa [h1], fun h => absurd h1 h, by rwa [h2], fun h => absurd h2 h,
    fun h => absurd h2 h⟩

theorem pointersInside_zero (hn : 0 < im.nblks) : PointersInside im Inode.zero :=
  pointersInside_of_direct hn (fun _ => hn) rfl rfl

/-- Inode 1 is the root directory in block 4, inode 2 a file with block 5, and inode 3 a directory in
block 6. -/
def treeInodes (i : ℕ) : Inode :=
  if i = 1 then dirInode 4
  else if i = 2 then
    { Inode.zero with mode := 0x81A4, size := 7, direct := fun k => if k.val = 0 then 5 else 0 }
  else if i = 3 then dirInode 6
  else Inode.zero

/-- The block of the root directory: the file `a` and the directory `b`. -/
def treeRoot : Block :=
  (Block.zero.setDirent 0 ⟨true, false, 2, fun k => if k.val = 0 then 97 else 0⟩).setDirent 1
    ⟨true, true, 3, fun k => if k.val = 0 then 98 else 0⟩

/-- An image of 64 blocks with a file and a directory in the root directory. -/
def treeImage : Image where
  nblks := 64
  block := fun b =>
    if b = 0 then (Mkfs.super 64).block
    else if b = 1 then mapBlock (fun i => i ≤ 3) 0
    else if b = 2 then mapBlock (fun i => i ≤ 6) 0
    else if b = 3 then inodeBlock treeInodes 0
    else if b = 4 then treeRoot
    else Block.zero
  nblks_lt := by decide

theorem plausible_treeImage : Plausible treeImage where
  dvd := by decide
  pointers := by
    have hregion : regionInodes treeImage = 16 := by decide +kernel
    have hdirect : ∀ i < 16, (∀ k, ((regionInode treeImage i).direct k).toNat < treeImage.nblks) ∧
        (regionInode treeImage i).indir1 = 0 ∧ (regionInode treeImage i).indir2 = 0 := by
      decide +kernel
    intro i hi
    obtain ⟨hk, h1, h2⟩ := hdirect i (hregion ▸ hi)
    exact pointersInside_of_direct (by decide) hk h1 h2
  two_le := by decide +kernel
  le_nblks := by decide +kernel
  le_bits := by decide +kernel

theorem loaded_treeImage : Loaded treeImage :=
  ⟨by decide, by decide +kernel, by decide +kernel⟩

theorem survey_exact_treeImage : Plausible treeImage ∧ Loaded treeImage ∧ Exact treeImage :=
  ⟨plausible_treeImage, loaded_treeImage, survey_exact plausible_treeImage loaded_treeImage⟩

/-! ## Formatted images -/

/-- Every image that `mkfs-x6` writes can be loaded. -/
theorem loaded_formatted {n : ℕ} (h : Mkfs.Formattable n) (t : UInt32) :
    Loaded (Mkfs.formatted h t) := by
  have hsize := Mkfs.describes h t
  have himap : inodeMapSz (Mkfs.formatted h t) = Mkfs.nInoMapBlks n := hsize.inodeMapSz
  have hroot := (Mkfs.rootdirBase_lt h).le
  refine ⟨?_, ?_, ?_⟩
  · have hlt := h.bytes_lt
    change 1024 * n < 2 ^ 31
    omega
  · rw [himap, show blockMapSz (Mkfs.formatted h t) = Mkfs.nMapBlks n from hsize.blockMapSz,
      show inodeRegionSz (Mkfs.formatted h t) = Mkfs.nInoBlks n from hsize.inodeRegSz]
    exact hroot
  · have hmap := Mkfs.le_nMapBlks n
    rw [Mkfs.rootdirBase_eq] at hroot
    rw [himap]
    change n ≤ 8192 * (n - 1 - Mkfs.nInoMapBlks n)
    omega

/-- And with a multiple of 64 blocks it is plausible. -/
theorem plausible_formatted {n : ℕ} (h : Mkfs.Formattable n) (hdvd : 64 ∣ n) (t : UInt32) :
    Plausible (Mkfs.formatted h t) := by
  have hsize := Mkfs.describes h t
  have hbmap : blockMapSz (Mkfs.formatted h t) = Mkfs.nMapBlks n := hsize.blockMapSz
  have himap : inodeMapSz (Mkfs.formatted h t) = Mkfs.nInoMapBlks n := hsize.inodeMapSz
  have hregion : regionInodes (Mkfs.formatted h t) = 16 * Mkfs.nInoBlks n :=
    congrArg (16 * ·) hsize.inodeRegSz
  have hge := h.blocks_ge
  have hroot := Mkfs.rootdirBase_lt h
  have hnblks : (Mkfs.formatted h t).nblks = n := rfl
  have hinos : Mkfs.nInoBlks n = n / 64 := by
    rw [Mkfs.nInoBlks, Mkfs.nInos, Mkfs.divRoundUp]
    omega
  refine ⟨hdvd, fun i hi => ?_, ?_, ?_, ?_⟩
  · have hino : regionInode (Mkfs.formatted h t) i = Mkfs.inodes n t i := by
      rw [regionInode, himap, hbmap]
      exact forall_eq_inodeBlock_iff.mp (fun _ => Mkfs.block_inodes) i (hregion ▸ hi)
    rw [hino, Mkfs.inodes]
    split
    · refine pointersInside_of_direct (by omega) (fun k => ?_) rfl rfl
      rw [Mkfs.rootInode]
      dsimp only
      split
      · rwa [Inside, Mkfs.toNat_ofNat_of_le h hroot.le]
      · rw [Inside, hnblks]
        exact Nat.zero_lt_of_lt hroot
    · exact pointersInside_zero (by omega)
  · rw [hregion]
    omega
  · rw [hregion, hnblks]
    omega
  · rw [hregion, himap, Mkfs.nInoMapBlks, Mkfs.nInos, Mkfs.divRoundUp]
    omega

/-! ## Images that cannot be loaded -/

/-- An image of `n` blocks whose superblock gives the sizes of the two maps and one block of
inodes.  Inode 1 is a directory in block `p`. -/
def sample (n inodeMapSz blockMapSz p : ℕ) (h : n < 2 ^ 31) : Image where
  nblks := n
  block := fun b =>
    if b = 0 then
      Super.block ⟨0x37363030, .ofNat inodeMapSz, 1, .ofNat blockMapSz, .ofNat n, 1⟩
    else if b = 1 + inodeMapSz + blockMapSz then
      inodeBlock (fun i => if i = 1 then dirInode p else Inode.zero) 0
    else Block.zero
  nblks_lt := h

section Sample

variable {n imsz bmsz p : ℕ} {h : n < 2 ^ 31}

theorem sb_sample : sb (sample n imsz bmsz p h) =
    ⟨0x37363030, .ofNat imsz, 1, .ofNat bmsz, .ofNat n, 1⟩ := Super.ofBlock_block _

theorem inodeMapSz_sample (himsz : imsz < 2 ^ 31) :
    inodeMapSz (sample n imsz bmsz p h) = imsz := by
  rw [inodeMapSz, sb_sample]
  exact UInt32.toNat_ofNat_of_lt' (by rw [UInt32.size]; omega)

theorem blockMapSz_sample (hbmsz : bmsz < 2 ^ 31) :
    blockMapSz (sample n imsz bmsz p h) = bmsz := by
  rw [blockMapSz, sb_sample]
  exact UInt32.toNat_ofNat_of_lt' (by rw [UInt32.size]; omega)

theorem regionInodes_sample : regionInodes (sample n imsz bmsz p h) = 16 := by
  rw [regionInodes, inodeRegionSz, sb_sample]
  rfl

theorem regionInode_sample (himsz : imsz < 2 ^ 31) (hbmsz : bmsz < 2 ^ 31) {i : ℕ} (hi : i < 16) :
    regionInode (sample n imsz bmsz p h) i = if i = 1 then dirInode p else Inode.zero := by
  rw [regionInode, inodeMapSz_sample himsz, blockMapSz_sample hbmsz]
  have hblock : ∀ k < 1, (sample n imsz bmsz p h).block (1 + imsz + bmsz + k) =
      inodeBlock (fun i => if i = 1 then dirInode p else Inode.zero) k := by
    intro k hk
    obtain rfl : k = 0 := by omega
    exact (if_neg (by omega)).trans (if_pos rfl)
  exact forall_eq_inodeBlock_iff.mp hblock i hi

theorem toNat_dirInode (hp : p < 2 ^ 31) : ((dirInode p).directAt 0).toNat = p :=
  UInt32.toNat_ofNat_of_lt' (by rw [UInt32.size]; omega)

theorem plausible_sample (hdvd : 64 ∣ n) (hpos : 0 < n) (hone : 1 ≤ imsz) (himsz : imsz < 2 ^ 31)
    (hbmsz : bmsz < 2 ^ 31) (hp : p < n) : Plausible (sample n imsz bmsz p h) := by
  have hn : 64 ≤ n := Nat.le_of_dvd hpos hdvd
  refine ⟨hdvd, fun i hi => ?_, ?_, ?_, ?_⟩
  · rw [regionInodes_sample] at hi
    have hnblks : (sample n imsz bmsz p h).nblks = n := rfl
    rw [regionInode_sample himsz hbmsz hi]
    split
    · refine pointersInside_of_direct (by omega) (fun k => ?_) rfl rfl
      rw [dirInode]
      dsimp only
      split
      · rwa [Inside, UInt32.toNat_ofNat_of_lt' (by rw [UInt32.size]; omega)]
      · exact hpos
    · exact pointersInside_zero hpos
  · rw [regionInodes_sample]
    omega
  · rw [regionInodes_sample]
    exact le_trans (by omega) hn
  · rw [regionInodes_sample, inodeMapSz_sample himsz]
    omega

end Sample

/-- A survey that returns has taken inode 1 off the work list. -/
theorem visit_root_of_survey {fuel : ℕ} (h : survey im fuel = .ok r) :
    Returns (load im) ∧ ∃ s, Returns (Search.visit im s ⟨true, 1⟩) := by
  simp only [survey, bind_eq_ok] at h
  obtain ⟨b, hload, _, _, _, _, s, hstart, p, hloop, _⟩ := h
  refine ⟨⟨b, hload⟩, ?_⟩
  simp only [Search.start, bind_eq_ok, Search.append, Search.setMet, guard_eq_ok] at hstart
  obtain ⟨s', ⟨_, hs'⟩, _, hs⟩ := hstart
  cases hs'
  cases hs
  cases fuel with
  | zero => cases hloop
  | succ k =>
    rw [Search.loop, if_neg (by simp)] at hloop
    obtain ⟨x, hvisit, _⟩ := bind_eq_ok.mp hloop
    exact ⟨_, x, hvisit⟩

theorem not_exact_of_load (h : ¬Returns (load im)) : ¬Exact im := by
  rintro ⟨r, hr, _⟩
  exact h (visit_root_of_survey (hr _ (Nat.lt_succ_self _))).1

theorem not_exact_of_visit (h : ∀ s, ¬Returns (Search.visit im s ⟨true, 1⟩)) : ¬Exact im := by
  rintro ⟨r, hr, _⟩
  obtain ⟨_, s, hs⟩ := visit_root_of_survey (hr _ (Nat.lt_succ_self _))
  exact h s hs

/-- 2 GiB: its size as an `int` is negative, and the checker exits. -/
def huge : Image := sample (2 ^ 21) 1 256 300 (by decide)

/-- 64 blocks, with maps that leave no room for the inode region. -/
def squeezed : Image := sample 64 1 62 4 (by decide)

/-- An inode map that leaves one block, and no block map: the bit of block 8200 is past the end. -/
def unmapped : Image := sample 8256 8254 0 8200 (by decide)

theorem not_exact_huge : ¬Exact huge := by
  refine not_exact_of_load ?_
  rintro ⟨b, hb⟩
  have hneg : size huge < 0 := by decide
  rw [load, if_pos hneg] at hb
  cases hb

theorem not_exact_squeezed : ¬Exact squeezed := by
  refine not_exact_of_visit fun s => ?_
  rintro ⟨x, hx⟩
  obtain ⟨ino, hino, _⟩ := bind_eq_ok.mp hx
  rw [inode, guard_eq_ok, inodeBase, blockMapBase, squeezed, sb_sample] at hino
  exact absurd hino.1 (by decide)

theorem not_exact_unmapped : ¬Exact unmapped := by
  have hroot : regionInode unmapped 1 = dirInode 8200 :=
    regionInode_sample (by decide) (by decide) (by decide)
  have hbase : blockMapBase unmapped = 8255 := by
    rw [blockMapBase, unmapped, sb_sample]
    rfl
  have hbase' : inodeBase unmapped = 1 + inodeMapSz unmapped + blockMapSz unmapped := by
    rw [inodeBase, hbase, unmapped, inodeMapSz_sample (by decide), blockMapSz_sample (by decide),
      sb_sample]
    rfl
  refine not_exact_of_visit fun s => ?_
  rintro ⟨x, hx⟩
  obtain ⟨ino, hino, hx⟩ := bind_eq_ok.mp hx
  rw [inode, guard_eq_ok, hbase'] at hino
  obtain rfl : dirInode 8200 = ino := hroot ▸ Except.ok.inj hino.2
  have hmode : sIsDir (dirInode 8200).mode = true := by decide
  simp only [hmode] at hx
  obtain ⟨de, _, hx⟩ := bind_eq_ok.mp hx
  obtain ⟨used, hused, _⟩ := bind_eq_ok.mp hx
  rw [diskBit, guard_eq_ok, hbase, toNat_dirInode (by decide)] at hused
  exact absurd hused.1 (by decide)

/-- Plausible is not enough: the size must fit an `int`, and the inode region and the bits of the
block map must lie inside the image. -/
theorem not_exact : (Plausible huge ∧ ¬Exact huge) ∧ (Plausible squeezed ∧ ¬Exact squeezed) ∧
    (Plausible unmapped ∧ ¬Exact unmapped) := by
  refine ⟨⟨plausible_sample ?_ ?_ ?_ ?_ ?_ ?_, not_exact_huge⟩,
    ⟨plausible_sample ?_ ?_ ?_ ?_ ?_ ?_, not_exact_squeezed⟩,
    plausible_sample ?_ ?_ ?_ ?_ ?_ ?_, not_exact_unmapped⟩ <;> decide

end ReadImg

end Fsx600
