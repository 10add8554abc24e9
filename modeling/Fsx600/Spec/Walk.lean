import Fsx600.Lib.WorkList
import Fsx600.Model.ReadImg

/-!
# The walk of the image checker

What the checker does on an image that it can load and whose tables and pointers stay
inside it, `Plausible` and `Loaded`.  Nothing stops it there: the loop visits the nodes
of a `WorkList` search, whose nodes are the entries of the work list and whose keys are
their inode numbers.

* `Search.Sound`: `imap` marks the inodes of the list, each once;
* `Search.Visited`: what one iteration does to the list;
* `Search.loop_ok`: what the whole loop does.
-/

namespace Fsx600

namespace ReadImg

open Checked Function

variable (im : Image)

/-! ## The image as data -/

/-- `sb->inode_map_sz`. -/
def inodeMapSz : ℕ := (sb im).inodeMapSz.toNat

/-- `sb->block_map_sz`. -/
def blockMapSz : ℕ := (sb im).blockMapSz.toNat

/-- `sb->inode_region_sz`. -/
def inodeRegionSz : ℕ := (sb im).inodeRegionSz.toNat

/-- The inodes in the region, `INODES_PER_BLK` to a block. -/
def regionInodes : ℕ := 16 * inodeRegionSz im

/-- Inode `i` of the region. -/
def regionInode (i : ℕ) : Inode :=
  inodeAt (fun k => im.block (1 + inodeMapSz im + blockMapSz im + k)) i

/-- Inode `i` is marked in use in the inode map. -/
def inUse (i : ℕ) : Bool := mapBit (fun k => im.block (1 + k)) i

/-- A block pointer inside the image. -/
def Inside (p : UInt32) : Prop := p.toNat < im.nblks

/-- The pointers in a pointer block. -/
def WordsInside (b : Block) : Prop := ∀ k < 256, Inside im (b.word k)

/-- The block pointers of an inode lie inside the image: its own, and those in its pointer
blocks. -/
structure PointersInside (ino : Inode) : Prop where
  direct : ∀ k, Inside im (ino.direct k)
  indir1 : Inside im ino.indir1
  indir1_words : ino.indir1 ≠ 0 → WordsInside im (im.block ino.indir1.toNat)
  indir2 : Inside im ino.indir2
  indir2_words : ino.indir2 ≠ 0 → WordsInside im (im.block ino.indir2.toNat)
  level1_words : ino.indir2 ≠ 0 → ∀ k < 256, (im.block ino.indir2.toNat).word k ≠ 0 →
    WordsInside im (im.block ((im.block ino.indir2.toNat).word k).toNat)

/-- An image whose number of blocks is a multiple of 64, whose block pointers lie inside it, and
whose inode region holds at least two inodes and no more than it has blocks or the inode map
has bits. -/
structure Plausible : Prop where
  dvd : 64 ∣ im.nblks
  pointers : ∀ i < regionInodes im, PointersInside im (regionInode im i)
  two_le : 2 ≤ regionInodes im
  le_nblks : regionInodes im ≤ im.nblks
  le_bits : regionInodes im ≤ 8192 * inodeMapSz im

/-- Of a plausible image, what does not look at its pointers. -/
structure Bounded : Prop where
  dvd : 64 ∣ im.nblks
  two_le : 2 ≤ regionInodes im
  le_nblks : regionInodes im ≤ im.nblks
  le_bits : regionInodes im ≤ 8192 * inodeMapSz im

variable {im} in
theorem Plausible.bounded (hp : Plausible im) : Bounded im :=
  ⟨hp.dvd, hp.two_le, hp.le_nblks, hp.le_bits⟩

/-- The size of the image fits the `int` it is stored in, and its maps and its inode region lie
inside it, down to a bit of the block map for each of its blocks. -/
structure Loaded : Prop where
  size_lt : 1024 * im.nblks < 2 ^ 31
  regions_le : 1 + inodeMapSz im + blockMapSz im + inodeRegionSz im ≤ im.nblks
  mapped : im.nblks ≤ 8192 * (im.nblks - 1 - inodeMapSz im)

/-- The entry that a directory entry puts on the work list: it is valid, and its inode is in the
region. -/
def target (d : Dirent) : Option Entry :=
  if d.valid ∧ d.inode.toNat < regionInodes im then some ⟨d.isDir, d.inode.toNat⟩ else none

/-- Slot `i` of an entry that is expanded: it says that its inode is a directory, and the inode's
mode agrees. -/
def listed (e : Entry) (i : ℕ) : Option Entry :=
  if e.dir ∧ sIsDir (regionInode im e.inum).mode then
    target im ((im.block ((regionInode im e.inum).directAt 0).toNat).dirent i)
  else none

/-- The pointers that the walk follows from an entry lie inside the image: that of the block of a
directory, or all those of a file. -/
structure Entry.Inside (e : Entry) : Prop where
  dir : e.dir → sIsDir (regionInode im e.inum).mode →
    ReadImg.Inside im ((regionInode im e.inum).directAt 0)
  file : e.dir = false → PointersInside im (regionInode im e.inum)

/-- The search that the checker makes, from inode 1. -/
abbrev Traversal : List Entry → ℕ → Prop :=
  WorkList.Traversal (listed im) (List.range 32) Entry.inum ⟨true, 1⟩

/-- Inode `i` can be reached from inode 1 through valid entries in range of expanded directories. -/
def Reached (i : ℕ) : Prop :=
  ∃ e, WorkList.Reachable (listed im) (List.range 32) ⟨true, 1⟩ e ∧ e.inum = i

/-- Some inode is met twice through such entries, inode 1 being met at the start. -/
def MetTwice : Prop := WorkList.MetTwice (listed im) (List.range 32) Entry.inum ⟨true, 1⟩

variable {im}

/-! ## Inside the buffer -/

theorem size_eq (hl : Loaded im) : size im = (1024 * im.nblks : ℕ) := by
  have hlt := hl.size_lt
  have hsz : (UInt32.ofNat (1024 * im.nblks)).toNat = 1024 * im.nblks := by
    rw [UInt32.toNat_ofNat']
    omega
  rw [size, cInt_of_lt (by omega), hsz]

theorem diskBlocks_eq (hl : Loaded im) : diskBlocks im = im.nblks := by
  rw [diskBlocks, size_eq hl]
  omega

theorem diskBlock_ok (hl : Loaded im) {b : ℕ} (hb : b < im.nblks) :
    diskBlock im b = .ok (im.block b) := by
  rw [diskBlock, diskBlocks_eq hl, if_pos hb]

theorem load_ok (hl : Loaded im) : load im = .ok (im.block 0) := by
  have hr := hl.regions_le
  rw [load, if_neg (by rw [size_eq hl]; omega), diskBlock_ok hl (by omega)]

/-- The offset of a block in bytes, and back. -/
theorem toNat_mul_1024_div {w : UInt32} (h : 1024 * w.toNat < 2 ^ 32) :
    (w * 1024).toNat / 1024 = w.toNat := by
  have hmul : (w * 1024).toNat = w.toNat * 1024 % 2 ^ 32 := UInt32.toNat_mul w 1024
  omega

theorem diskAt_ok (hl : Loaded im) {p : UInt32} (hp : Inside im p) :
    diskAt im p = .ok (im.block p.toNat) := by
  have hlt := hl.size_lt
  unfold Inside at hp
  rw [diskAt, toNat_mul_1024_div (by omega), diskBlock_ok hl hp]

theorem diskAtInt_ok (hl : Loaded im) {p : UInt32} (hp : Inside im p) :
    diskAtInt im p = .ok (im.block p.toNat) := by
  have hlt := hl.size_lt
  unfold Inside at hp
  rw [diskAtInt, if_pos (by omega), diskBlock_ok hl hp]

theorem blockMapBase_eq (hl : Loaded im) : blockMapBase im = 1 + inodeMapSz im := by
  have hlt := hl.size_lt
  have hr := hl.regions_le
  unfold inodeMapSz at hr ⊢
  rw [blockMapBase, inodeMapBase, toNat_mul_1024_div (by omega)]

theorem inodeBase_eq (hl : Loaded im) : inodeBase im = 1 + inodeMapSz im + blockMapSz im := by
  have hlt := hl.size_lt
  have hr := hl.regions_le
  unfold blockMapSz at hr ⊢
  rw [inodeBase, blockMapBase_eq hl, toNat_mul_1024_div (by omega)]

theorem inode_ok (hl : Loaded im) {i : ℕ} (hi : i < regionInodes im) :
    inode im i = .ok (regionInode im i) := by
  have hr := hl.regions_le
  unfold regionInodes at hi
  rw [inode, diskBlocks_eq hl, inodeBase_eq hl, if_pos (by omega), regionInode]

theorem diskBit_ok (hl : Loaded im) {base i : ℕ} (h : base + i / 8192 < im.nblks) :
    diskBit im base i = .ok (mapBit (fun k => im.block (base + k)) i) := by
  rw [diskBit, diskBlocks_eq hl, if_pos h]

/-- The bits of the inode map. -/
theorem diskBit_inodeMap (hl : Loaded im) {i : ℕ} (hi : i < 8192 * inodeMapSz im) :
    diskBit im inodeMapBase i = .ok (inUse im i) := by
  have hr := hl.regions_le
  exact diskBit_ok hl (by rw [inodeMapBase]; omega)

/-- The bit of a block that is inside the image. -/
theorem diskBit_blockMap (hl : Loaded im) {p : UInt32} (hp : Inside im p) :
    Returns (diskBit im (blockMapBase im) p.toNat) := by
  have hr := hl.mapped
  unfold Inside at hp
  rw [blockMapBase_eq hl]
  exact ⟨_, diskBit_ok hl (by omega)⟩

theorem numInodes_eq (hb : Bounded im) (hl : Loaded im) : numInodes im = regionInodes im := by
  have hlt := hl.size_lt
  have hle := hb.le_nblks
  unfold regionInodes inodeRegionSz at hle ⊢
  have hmul : ((sb im).inodeRegionSz * 16).toNat = (sb im).inodeRegionSz.toNat * 16 % 2 ^ 32 :=
    UInt32.toNat_mul _ _
  rw [numInodes]
  omega

theorem Bounded.lt_listSize (hb : Bounded im) (hl : Loaded im) {n : ℕ} (hn : n ≤ regionInodes im) :
    n < listSize im := by
  have hlt := hl.size_lt
  have hle := hb.le_nblks
  have hnum := numInodes_eq hb hl
  unfold numInodes at hnum
  rw [listSize, cInt_of_lt (by omega), hnum]
  omega

theorem lt_listSize (hp : Plausible im) (hl : Loaded im) {n : ℕ} (hn : n ≤ regionInodes im) :
    n < listSize im := hp.bounded.lt_listSize hl hn

/-- The bitmaps have a bit for each block of the image. -/
theorem Bounded.inMap (hb : Bounded im) (hl : Loaded im) {i : ℕ} (hi : i < im.nblks) : InMap im i := by
  obtain ⟨c, hc⟩ := hb.dvd
  rw [InMap, size_eq hl]
  omega

theorem inMap (hp : Plausible im) (hl : Loaded im) {i : ℕ} (hi : i < im.nblks) : InMap im i :=
  hp.bounded.inMap hl hi

theorem inMap_of_lt (hb : Bounded im) (hl : Loaded im) {i : ℕ} (hi : i < regionInodes im) :
    InMap im i := hb.inMap hl (hi.trans_le hb.le_nblks)

theorem allocatedInodes_returns (hl : Loaded im) : Returns (allocatedInodes im) := by
  have hle : ((sb im).inodeMapSz * 8192).toNat ≤ 8192 * inodeMapSz im := by
    rw [inodeMapSz, Nat.mul_comm]
    exact (UInt32.toNat_mul _ _).trans_le (Nat.mod_le _ _)
  refine filter_returns fun i hi => ?_
  rw [List.mem_range] at hi
  exact ⟨_, diskBit_inodeMap hl (by omega)⟩

theorem allocatedBlocks_returns (hl : Loaded im) : Returns (allocatedBlocks im) := by
  have hr := hl.regions_le
  have hle : ((sb im).blockMapSz * 8192).toNat ≤ 8192 * blockMapSz im := by
    rw [blockMapSz, Nat.mul_comm]
    exact (UInt32.toNat_mul _ _).trans_le (Nat.mod_le _ _)
  refine filter_returns fun i hi => ?_
  rw [List.mem_range] at hi
  rw [blockMapBase_eq hl]
  exact ⟨_, diskBit_ok hl (by omega)⟩

/-! ## The state -/

namespace Search

variable {s s' s'' : Search}

/-- The walk has the same marks and the same work list. -/
structure SameList (s s' : Search) : Prop where
  imap : s'.imap = s.imap
  list : s'.list = s.list
  tail : s'.tail = s.tail

theorem SameList.refl : SameList s s := ⟨rfl, rfl, rfl⟩

theorem SameList.trans (h : SameList s s') (h' : SameList s' s'') : SameList s s'' :=
  ⟨h'.imap.trans h.imap, h'.list.trans h.list, h'.tail.trans h.tail⟩

theorem sameList_print (s : Search) (l : Line) : SameList s (s.print l) := ⟨rfl, rfl, rfl⟩

/-- A line that is printed only in one case. -/
theorem sameList_print_ite (s : Search) (l : Line) (b : Bool) :
    SameList s (if b then s else s.print l) := by
  split
  · exact .refl
  · exact sameList_print s l

theorem setSeen_ok (hb : Bounded im) (hl : Loaded im) (s : Search) {p : UInt32}
    (hin : Inside im p) : Yields (s.setSeen im p.toNat) (SameList s) :=
  yields_of_eq (if_pos (hb.inMap hl hin)) ⟨rfl, rfl, rfl⟩

theorem setMet_ok (s : Search) {i : ℕ} (hi : InMap im i) : Yields (s.setMet im i) fun s' =>
    s'.imap = update s.imap i true ∧ s'.list = s.list ∧ s'.tail = s.tail :=
  yields_of_eq (if_pos hi) ⟨rfl, rfl, rfl⟩

theorem append_ok (s : Search) (e : Entry) (h : s.list.length < listSize im) :
    Yields (s.append im e) fun s' =>
      s'.imap = s.imap ∧ s'.list = s.list ++ [e] ∧ s'.tail = s.tail :=
  yields_of_eq (if_pos h) ⟨rfl, rfl, rfl⟩

variable (im) in
/-- `imap` marks the inodes of the work list; each is there once, and is in the region. -/
structure Sound (s : Search) : Prop where
  marked : ∀ i, s.imap i = true ↔ i ∈ s.list.map Entry.inum
  nodup : (s.list.map Entry.inum).Nodup
  lt : ∀ e ∈ s.list, e.inum < regionInodes im

theorem SameList.sound (h : SameList s s') (hs : Sound im s) : Sound im s' := by
  refine ⟨?_, ?_, ?_⟩
  · rw [h.imap, h.list]
    exact hs.marked
  · rw [h.list]
    exact hs.nodup
  · rw [h.list]
    exact hs.lt

theorem Sound.length_le (hs : Sound im s) : s.list.length ≤ regionInodes im := by
  have hle := WorkList.length_le (U := List.range (regionInodes im)) hs.nodup fun e he =>
    List.mem_range.mpr (hs.lt e he)
  rwa [List.length_range] at hle

/-! ## Files -/

theorem seeBlock_ok (hb : Bounded im) (hl : Loaded im) (s : Search) {p : UInt32}
    (hin : Inside im p) : Yields (s.seeBlock im p) (SameList s) := by
  unfold seeBlock
  split
  · exact yields_ok .refl
  · refine (setSeen_ok hb hl _ hin).bind fun s' hs' => ?_
    refine (diskBit_blockMap hl hin).yields.bind fun used _ => yields_ok ?_
    exact ((sameList_print s _).trans hs').trans (sameList_print_ite _ _ used)

theorem seeBlocks_ok (hb : Bounded im) (hl : Loaded im) (s : Search) {ps : List UInt32}
    (hin : ∀ p ∈ ps, Inside im p) : Yields (s.seeBlocks im ps) (SameList s) := by
  induction ps generalizing s with
  | nil => exact yields_ok .refl
  | cons p ps ih =>
    refine (seeBlock_ok hb hl s (hin p List.mem_cons_self)).bind fun s' hs' => ?_
    exact (ih s' fun q hq => hin q (List.mem_cons_of_mem _ hq)).mono fun _ => hs'.trans

theorem seeBlocks_words (hb : Bounded im) (hl : Loaded im) (s : Search) {b : Block}
    (hin : WordsInside im b) : Yields (s.seeBlocks im (words b)) (SameList s) := by
  refine seeBlocks_ok hb hl s fun p hp => ?_
  obtain ⟨k, hk, rfl⟩ := List.mem_map.mp hp
  exact hin k (List.mem_range.mp hk)

theorem seeLevel1_ok (hb : Bounded im) (hl : Loaded im) (s : Search) {ps : List UInt32}
    (hin : ∀ p ∈ ps, p ≠ 0 → Inside im p ∧ WordsInside im (im.block p.toNat)) :
    Yields (s.seeLevel1 im ps) (SameList s) := by
  induction ps generalizing s with
  | nil => exact yields_ok .refl
  | cons p ps ih =>
    have hps := fun q hq => hin q (List.mem_cons_of_mem p hq)
    unfold seeLevel1
    split
    · exact ih s hps
    · obtain ⟨hp', hw⟩ := hin p List.mem_cons_self ‹_›
      rw [diskAtInt_ok hl hp', ok_bind]
      refine (seeBlocks_words hb hl s hw).bind fun s' hs' => ?_
      exact (ih s' hps).mono fun _ => hs'.trans

theorem seeIndir1_ok (hb : Bounded im) (hl : Loaded im) (s : Search) {ino : Inode}
    (hino : PointersInside im ino) : Yields (s.seeIndir1 im ino.indir1) (SameList s) := by
  unfold seeIndir1
  split
  · exact yields_ok .refl
  · rw [diskAt_ok hl hino.indir1, ok_bind]
    exact seeBlocks_words hb hl s (hino.indir1_words ‹_›)

theorem seeIndir2_ok (hb : Bounded im) (hl : Loaded im) (s : Search) {ino : Inode}
    (hino : PointersInside im ino) : Yields (s.seeIndir2 im ino.indir2) (SameList s) := by
  unfold seeIndir2
  split
  · exact yields_ok .refl
  · rw [diskAt_ok hl hino.indir2, ok_bind]
    refine seeLevel1_ok hb hl s fun p hmem hne => ?_
    obtain ⟨k, hk, rfl⟩ := List.mem_map.mp hmem
    rw [List.mem_range] at hk
    exact ⟨hino.indir2_words ‹_› k hk, hino.level1_words ‹_› k hk hne⟩

/-- Printing a file leaves the work list as it is. -/
theorem visitFile_ok (hb : Bounded im) (hl : Loaded im) (s : Search) (inum : ℕ) {ino : Inode}
    (hino : PointersInside im ino) : Yields (s.visitFile im inum ino) (SameList s) := by
  unfold visitFile
  refine (seeBlocks_ok hb hl _ fun p hmem => ?_).bind fun s₁ hs₁ => ?_
  · obtain ⟨k, rfl⟩ := (List.mem_ofFn' _ _).mp hmem
    exact hino.direct k
  refine (seeIndir1_ok hb hl s₁ hino).bind fun s₂ hs₂ => ?_
  have hsame := ((sameList_print s _).trans hs₁).trans hs₂
  exact (seeIndir2_ok hb hl s₂ hino).mono fun _ => hsame.trans

/-! ## Directories -/

/-- The last line is the loop error. -/
def LoopError (s : Search) : Prop := ∃ inum, s.log.head? = some (.loopFound inum)

variable (im) in
/-- What `kids` do to the work list: they are appended, or one of them is there already, and the
loop error is printed. -/
inductive Visited (s : Search) (kids : List Entry) : Bool × Search → Prop
  | all {s' : Search} : s'.list = s.list ++ kids → s'.tail = s.tail → Sound im s' →
    Visited s kids (false, s')
  | twice {s' : Search} : ¬((s.list ++ kids).map Entry.inum).Nodup → s'.LoopError →
    Sound im s' → Visited s kids (true, s')

theorem SameList.visited (h : SameList s s') (hs : Sound im s) : Visited im s [] (false, s') :=
  .all (h.list.trans (List.append_nil _).symm) h.tail (h.sound hs)

/-- A state with the same work list. -/
theorem Visited.of_sameList {kids : List Entry} {r : Bool × Search} (h : Visited im s' kids r)
    (hsame : SameList s s') : Visited im s kids r := by
  cases h with
  | all hlist htail hs => exact .all (by rw [hlist, hsame.list]) (htail.trans hsame.tail) hs
  | twice hn hlog hs => exact .twice (by rwa [← hsame.list]) hlog hs

theorem target_of_valid {d : Dirent} (hv : d.valid) (hi : d.inode.toNat < regionInodes im) :
    target im d = some ⟨d.isDir, d.inode.toNat⟩ := if_pos ⟨hv, hi⟩

/-- Marking an inode and putting it on the work list. -/
theorem Sound.append (hs : Sound im s) {e : Entry} (hi : e.inum < regionInodes im)
    (hnot : e.inum ∉ s.list.map Entry.inum) (himap : s'.imap = update s.imap e.inum true)
    (hlist : s'.list = s.list ++ [e]) : Sound im s' := by
  have hmap : s'.list.map Entry.inum = s.list.map Entry.inum ++ [e.inum] := by
    rw [hlist, List.map_append, List.map_singleton]
  refine ⟨fun i => ?_, ?_, fun x hx => ?_⟩
  · rw [himap, hmap, List.mem_append, List.mem_singleton, update_apply, ← hs.marked]
    split
    · simp [*]
    · simp [*]
  · rw [hmap]
    refine List.nodup_append.mpr ⟨hs.nodup, List.nodup_singleton _, fun a ha b hb hab => ?_⟩
    rw [List.mem_singleton] at hb
    exact hnot (hb ▸ hab ▸ ha)
  · rw [hlist, List.mem_append, List.mem_singleton] at hx
    rcases hx with hx | rfl
    · exact hs.lt x hx
    · exact hi

theorem visitEntry_ok (hb : Bounded im) (hl : Loaded im) (hs : Sound im s) (inum : ℕ)
    (d : Dirent) : Yields (s.visitEntry im inum d) (Visited im s (target im d).toList) := by
  unfold visitEntry
  by_cases hv : d.valid
  case neg =>
    have htarget : target im d = none := if_neg fun h => hv h.1
    rw [if_neg hv, htarget]
    exact yields_ok (SameList.refl.visited hs)
  have hprint := sameList_print s (.entry d)
  have hs₁ := hprint.sound hs
  rw [if_pos hv]
  dsimp only
  by_cases hi : d.inode.toNat < regionInodes im
  case neg =>
    have htarget : target im d = none := if_neg fun h => hi h.2
    rw [if_pos (by rw [numInodes_eq hb hl]; omega), htarget]
    exact yields_ok ((hprint.trans (sameList_print _ _)).visited hs)
  have hin := inMap_of_lt hb hl hi
  rw [if_neg (by rw [numInodes_eq hb hl]; omega), target_of_valid hv hi, met, if_pos hin, ok_bind]
  by_cases hmet : s.imap d.inode.toNat = true
  · have hmem := (hs.marked _).mp hmet
    rw [if_pos (show (s.print (.entry d)).imap d.inode.toNat = true from hmet)]
    refine yields_ok (.twice (fun hn => ?_) ⟨inum, rfl⟩ ((hprint.trans (sameList_print _ _)).sound hs))
    rw [List.map_append] at hn
    exact (List.nodup_append.mp hn).2.2 _ hmem _ List.mem_cons_self rfl
  · have hnot := fun h => hmet ((hs.marked _).mpr h)
    have hlen := hb.lt_listSize hl hs.length_le
    rw [if_neg (show ¬(s.print (.entry d)).imap d.inode.toNat = true from hmet)]
    refine (setMet_ok (s.print (.entry d)) hin).bind fun s₁ ⟨himap, hlist, htail⟩ => ?_
    rw [diskBit_inodeMap hl (hi.trans_le hb.le_bits), ok_bind]
    have hsame := sameList_print_ite s₁ (.inodeFree d.inode.toNat) (inUse im d.inode.toNat)
    refine (append_ok _ _ ?_).bind fun s₂ ⟨himap', hlist', htail'⟩ => ?_
    · rwa [hsame.list, hlist]
    · rw [hsame.imap, himap] at himap'
      rw [hsame.list, hlist] at hlist'
      rw [hsame.tail, htail] at htail'
      exact yields_ok (.all hlist' htail' (hs.append (e := ⟨d.isDir, _⟩) hi hnot himap' hlist'))

theorem filterMap_cons_toList {α β : Type} (f : α → Option β) (a : α) (l : List α) :
    (a :: l).filterMap f = (f a).toList ++ l.filterMap f := by
  cases h : f a with
  | none => rw [List.filterMap_cons_none h, Option.toList_none, List.nil_append]
  | some b => rw [List.filterMap_cons_some h, Option.toList_some, List.singleton_append]

/-- More entries after those that were all appended. -/
theorem Visited.append {kids kids' : List Entry} {r : Bool × Search}
    (h : Visited im s kids (false, s')) (h' : Visited im s' kids' r) :
    Visited im s (kids ++ kids') r := by
  cases h with
  | all hlist htail _ =>
    cases h' with
    | all hlist' htail' hs' =>
      exact .all (by rw [hlist', hlist, List.append_assoc]) (htail'.trans htail) hs'
    | twice hn hlog hs' => exact .twice (by rwa [← List.append_assoc, ← hlist]) hlog hs'

/-- The entries of a directory: those of them that go on the work list, in order. -/
theorem visitEntries_ok (hb : Bounded im) (hl : Loaded im) (hs : Sound im s) (inum : ℕ)
    (ds : List Dirent) :
    Yields (s.visitEntries im inum ds) (Visited im s (ds.filterMap (target im))) := by
  induction ds generalizing s with
  | nil => exact yields_ok (SameList.refl.visited hs)
  | cons d ds ih =>
    rw [filterMap_cons_toList]
    refine (visitEntry_ok hb hl hs inum d).bind fun ⟨failed, s'⟩ hv => ?_
    cases failed with
    | true =>
      cases hv with
      | twice hn hlog hs' =>
        refine yields_ok (.twice (fun h => hn ?_) hlog hs')
        rw [← List.append_assoc, List.map_append] at h
        exact (List.nodup_append.mp h).1
    | false =>
      have hs' : Sound im s' := by
        cases hv with
        | all _ _ hs' => exact hs'
      exact (ih hs').mono fun _ => hv.append

theorem visitDir_ok (hb : Bounded im) (hl : Loaded im) (hs : Sound im s) (inum : ℕ)
    {ino : Inode} (hin : Inside im (ino.directAt 0)) :
    Yields (s.visitDir im inum ino)
      (Visited im s ((dirents (im.block (ino.directAt 0).toNat)).filterMap (target im))) := by
  unfold visitDir
  dsimp only
  rw [diskAt_ok hl hin, ok_bind]
  refine (diskBit_blockMap hl hin).yields.bind fun used _ => ?_
  refine (setSeen_ok hb hl _ hin).bind fun s₁ hs₁ => ?_
  have hsame := ((sameList_print s _).trans (sameList_print_ite _ _ used)).trans hs₁
  exact (visitEntries_ok hb hl (hsame.sound hs) inum _).mono fun _ hv => hv.of_sameList hsame

/-- One iteration appends what the search has for its entry. -/
theorem visit_ok (hb : Bounded im) (hl : Loaded im) (hs : Sound im s) {e : Entry}
    (he : e.inum < regionInodes im) (hin : e.Inside im) : Yields (s.visit im e)
      (Visited im s (WorkList.children (listed im) (List.range 32) e)) := by
  unfold visit
  rw [inode_ok hl he, ok_bind]
  by_cases hexp : e.dir ∧ sIsDir (regionInode im e.inum).mode
  · have hchildren : WorkList.children (listed im) (List.range 32) e =
        (dirents (im.block ((regionInode im e.inum).directAt 0).toNat)).filterMap (target im) := by
      rw [dirents, List.filterMap_map]
      exact List.filterMap_congr fun i _ => if_pos hexp
    rw [hchildren]
    simp only [hexp.1, hexp.2]
    exact visitDir_ok hb hl hs e.inum (hin.dir hexp.1 hexp.2)
  · have hchildren : WorkList.children (listed im) (List.range 32) e = [] :=
      List.filterMap_eq_nil_iff.mpr fun i _ => if_neg hexp
    rw [hchildren]
    cases hdir : e.dir with
    | false =>
      exact (visitFile_ok hb hl s e.inum (hin.file hdir)).bind fun s' hs' => yields_ok (hs'.visited hs)
    | true =>
      have hmode : sIsDir (regionInode im e.inum).mode = false := by
        simpa [hdir] using hexp
      simp only [hmode]
      exact yields_ok ((sameList_print s _).visited hs)

/-! ## The loop -/

variable (im) in
/-- How the loop ends: with all of the work list visited, or on an inode met twice. -/
inductive Finished : Bool × Search → Prop
  | done {s : Search} : Sound im s → Traversal im s.list s.list.length → Finished (false, s)
  | failed {s : Search} : Sound im s → s.LoopError → MetTwice im → Finished (true, s)

/-- One iteration goes on with the search, or ends the loop. -/
theorem Visited.next {r : Bool × Search} (htrav : Traversal im s.list s.tail)
    (ht : s.tail < s.list.length) (h : Visited im { s with tail := s.tail + 1 }
      (WorkList.children (listed im) (List.range 32) s.list[s.tail]) r) :
    r.1 = true ∧ Finished im r ∨ r.1 = false ∧ Sound im r.2 ∧ Traversal im r.2.list r.2.tail ∧
      r.2.tail = s.tail + 1 := by
  cases h with
  | all hlist htail hs =>
    refine .inr ⟨rfl, hs, ?_, htail⟩
    have hnodup := hs.nodup
    rw [hlist] at hnodup
    dsimp only
    rw [hlist, htail]
    exact .visit ht htrav hnodup
  | twice hn hlog hs => exact .inl ⟨rfl, .failed hs hlog (htrav.metTwice ht List.nodup_range hn)⟩

theorem loop_eq_of_done {fuel : ℕ} (h : s.list.length = s.tail) :
    loop im (fuel + 1) s = .ok (false, s) := if_pos h

theorem loop_eq_visit {fuel : ℕ} {failed : Bool} (h : s.tail < s.list.length)
    (hv : visit im { s with tail := s.tail + 1 } s.list[s.tail] = .ok (failed, s')) :
    loop im (fuel + 1) s = if failed then .ok (true, s') else loop im fuel s' := by
  rw [loop, if_neg (by omega), List.getElem?_eq_getElem h]
  dsimp only
  rw [hv, ok_bind]
  rfl

theorem loop_done {n : ℕ} (hs : Sound im s) (htrav : Traversal im s.list s.tail)
    (h : s.list.length = s.tail) :
    ∃ r, Finished im r ∧ ∀ fuel, n < fuel → loop im fuel s = .ok r := by
  refine ⟨(false, s), .done hs (by rwa [h]), fun fuel hfuel => ?_⟩
  obtain ⟨k, rfl⟩ := Nat.exists_eq_add_of_lt hfuel
  exact loop_eq_of_done h

/-- The loop ends within as many iterations as there are inodes left to find. -/
theorem loop_ok (hb : Bounded im) (hl : Loaded im)
    (hin : ∀ e, WorkList.Reachable (listed im) (List.range 32) ⟨true, 1⟩ e → e.Inside im) {n : ℕ} (hs : Sound im s)
    (htrav : Traversal im s.list s.tail) (hn : regionInodes im ≤ s.tail + n) :
    ∃ r, Finished im r ∧ ∀ fuel, n < fuel → loop im fuel s = .ok r := by
  induction n generalizing s with
  | zero =>
    have hle := hs.length_le
    exact loop_done hs htrav (Nat.le_antisymm (by omega) htrav.le_length)
  | succ n ih =>
    rcases htrav.le_length.eq_or_lt with hdone | ht
    · exact loop_done hs htrav hdone.symm
    · have hs' : Sound im { s with tail := s.tail + 1 } := ⟨hs.marked, hs.nodup, hs.lt⟩
      have hmem := List.getElem_mem ht
      obtain ⟨⟨failed, s₁⟩, hvisit, hv⟩ := visit_ok hb hl hs' (hs.lt _ hmem) (hin _ (htrav.reachable hmem))
      rcases hv.next htrav ht with ⟨rfl, hfin⟩ | ⟨rfl, hs₁, htrav₁, htail⟩
      · refine ⟨_, hfin, fun fuel hfuel => ?_⟩
        obtain ⟨k, rfl⟩ := Nat.exists_eq_add_of_lt hfuel
        exact loop_eq_visit ht hvisit
      · dsimp only at htail
        obtain ⟨r, hr, hloop⟩ := ih (s := s₁) hs₁ htrav₁ (by omega)
        refine ⟨r, hr, fun fuel hfuel => ?_⟩
        obtain ⟨k, rfl⟩ := Nat.exists_eq_add_of_lt hfuel
        exact (loop_eq_visit ht hvisit).trans (hloop _ (by omega))

theorem start_ok (hb : Bounded im) (hl : Loaded im) :
    Yields (start im) fun s => Sound im s ∧ Traversal im s.list s.tail := by
  have hone : 1 < regionInodes im := hb.two_le
  have hempty : Sound im ⟨fun _ => false, fun _ => false, [], 0, []⟩ :=
    ⟨fun i => by simp, List.nodup_nil, fun e he => absurd he List.not_mem_nil⟩
  have hlen := hb.lt_listSize hl hempty.length_le
  refine (append_ok _ ⟨true, 1⟩ hlen).bind fun s₁ ⟨himap, hlist, htail⟩ => ?_
  refine (setMet_ok s₁ (inMap_of_lt hb hl hone)).mono fun s₂ ⟨himap', hlist', htail'⟩ => ?_
  rw [himap] at himap'
  rw [hlist] at hlist'
  rw [htail] at htail'
  refine ⟨hempty.append (e := ⟨true, 1⟩) hone List.not_mem_nil himap' hlist', ?_⟩
  rw [hlist', htail']
  exact .start

/-- The inodes that are in use and not marked. -/
theorem unreachableInodes_ok (hb : Bounded im) (hl : Loaded im) (s : Search) :
    s.unreachableInodes im =
      .ok ((List.range' 1 (regionInodes im - 1)).filter fun i => !s.imap i && inUse im i) := by
  rw [unreachableInodes, numInodes_eq hb hl]
  refine filter_eq_ok fun i hi => ?_
  have hlt : i < regionInodes im := by
    have := List.mem_range'_1.mp hi
    omega
  rw [met, if_pos (inMap_of_lt hb hl hlt), ok_bind]
  cases s.imap i with
  | true => rfl
  | false => exact diskBit_inodeMap hl (hlt.trans_le hb.le_bits)

end Search

/-- The survey, once its loop has ended. -/
theorem survey_of_inside (hb : Bounded im) (hl : Loaded im)
    (hin : ∀ e, WorkList.Reachable (listed im) (List.range 32) ⟨true, 1⟩ e → e.Inside im) :
    ∃ r : Survey, (∀ fuel, regionInodes im < fuel → survey im fuel = .ok r) ∧
      ((r.unreachable = none ∧ Search.Finished im (true, r.search)) ∨
        r.unreachable = some ((List.range' 1 (regionInodes im - 1)).filter fun i =>
            !r.search.imap i && inUse im i) ∧ Search.Finished im (false, r.search)) := by
  obtain ⟨inodes, hinodes⟩ := allocatedInodes_returns hl
  obtain ⟨blocks, hblocks⟩ := allocatedBlocks_returns hl
  obtain ⟨s, hstart, hs, htrav⟩ := Search.start_ok hb hl
  obtain ⟨⟨failed, s'⟩, hfin, hloop⟩ := Search.loop_ok hb hl hin hs htrav (Nat.le_add_left _ _)
  cases failed with
  | true =>
    refine ⟨⟨inodes, blocks, s', none⟩, fun fuel hfuel => ?_, .inl ⟨rfl, hfin⟩⟩
    rw [survey, load_ok hl, ok_bind, hinodes, ok_bind, hblocks, ok_bind, hstart, ok_bind,
      hloop fuel hfuel, ok_bind]
    rfl
  | false =>
    refine ⟨⟨inodes, blocks, s', some ((List.range' 1 (regionInodes im - 1)).filter fun i =>
      !s'.imap i && inUse im i)⟩, fun fuel hfuel => ?_, .inr ⟨rfl, hfin⟩⟩
    rw [survey, load_ok hl, ok_bind, hinodes, ok_bind, hblocks, ok_bind, hstart, ok_bind,
      hloop fuel hfuel, ok_bind]
    dsimp only
    rw [Search.unreachableInodes_ok hb hl]
    rfl

/-- The inodes that the search gets to are in the region. -/
theorem lt_of_reachable (hb : Bounded im) {e : Entry}
    (h : WorkList.Reachable (listed im) (List.range 32) ⟨true, 1⟩ e) : e.inum < regionInodes im := by
  have hone : 1 < regionInodes im := hb.two_le
  rcases Relation.ReflTransGen.cases_tail h with rfl | ⟨x, -, hx⟩
  · exact hone
  · obtain ⟨i, -, hi⟩ := List.mem_filterMap.1 hx
    unfold listed target at hi
    split_ifs at hi with _ ht
    obtain rfl := Option.some.inj hi
    exact ht.2

/-- On a plausible image every pointer is inside. -/
theorem Plausible.inside (hp : Plausible im) {e : Entry}
    (h : WorkList.Reachable (listed im) (List.range 32) ⟨true, 1⟩ e) : e.Inside im :=
  have hino := hp.pointers _ (lt_of_reachable hp.bounded h)
  ⟨fun _ _ => hino.direct 0, fun _ => hino⟩

/-- The survey of a plausible image. -/
theorem survey_ok (hp : Plausible im) (hl : Loaded im) :
    ∃ r : Survey, (∀ fuel, regionInodes im < fuel → survey im fuel = .ok r) ∧
      ((r.unreachable = none ∧ Search.Finished im (true, r.search)) ∨
        r.unreachable = some ((List.range' 1 (regionInodes im - 1)).filter fun i =>
            !r.search.imap i && inUse im i) ∧ Search.Finished im (false, r.search)) :=
  survey_of_inside hp.bounded hl fun _ => hp.inside

end ReadImg

end Fsx600
