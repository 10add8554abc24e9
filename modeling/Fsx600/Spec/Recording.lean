import Fsx600.Spec.Walk

/-!
# What the image checker records

`blkmap` after the walk of the checker, on every image on which the walk ends without the
loop error.  Nothing is assumed of the image: that the walk has ended says that what it looked
at was inside the buffer and inside its tables.  So the image is described here as the
checker addresses it, with products that are 32 bits wide.

A file's entry records the pointers of its data slots, not those of its blocks of pointers
(`Entry.names`, `Entry.tables`).  `Walked` is the invariant of the loop.
-/

namespace Fsx600

namespace ReadImg

open Checked Function

variable (im : Image)

/-! ## The image as the checker addresses it -/

/-- The block at `disk + p * FS_BLOCK_SIZE`. -/
def blockAt (p : UInt32) : Block := im.block ((p * 1024).toNat / 1024)

/-- `inodes[i]`, wherever it is. -/
def inodeAtBase (i : ℕ) : Inode := inodeAt (fun k => im.block (inodeBase im + k)) i

/-- `FD_ISSET(b, block_map)`, wherever it is. -/
def marked (b : ℕ) : Bool := mapBit (fun k => im.block (blockMapBase im + k)) b

/-- The first data block, as the sum of `uint32_t`s that it is to the checker. -/
def firstData : ℕ := (1 + (sb im).inodeMapSz + (sb im).blockMapSz + (sb im).inodeRegionSz).toNat

/-- What a directory entry puts on the work list. -/
def entryTarget (d : Dirent) : Option Entry :=
  if d.valid ∧ d.inode.toNat < numInodes im then some ⟨d.isDir, d.inode.toNat⟩ else none

/-- An entry that says that its inode is a directory, where the mode of the inode agrees. -/
def Expanded (e : Entry) : Prop := e.dir ∧ sIsDir (inodeAtBase im e.inum).mode

instance (e : Entry) : Decidable (Expanded im e) := inferInstanceAs (Decidable (_ ∧ _))

/-- Slot `i` of an entry that is expanded. -/
def leads (e : Entry) (i : ℕ) : Option Entry :=
  if Expanded im e then entryTarget im ((blockAt im ((inodeAtBase im e.inum).directAt 0)).dirent i)
  else none

/-- What the walk gets to from inode 1. -/
def Reachable : Entry → Prop := WorkList.Reachable (leads im) (List.range 32) ⟨true, 1⟩

/-- The pointers of the data slots of a file, at all three levels. -/
def dataPointers (ino : Inode) : List UInt32 :=
  List.ofFn ino.direct ++ ((if ino.indir1 = 0 then [] else words (blockAt im ino.indir1)) ++
    if ino.indir2 = 0 then [] else
      (words (blockAt im ino.indir2)).flatMap fun p => if p = 0 then [] else words (blockAt im p))

/-- The pointers to the blocks of pointers of a file: `indir_1`, `indir_2` and the level-1
blocks. -/
def tablePointers (ino : Inode) : List UInt32 :=
  ino.indir1 :: ino.indir2 :: if ino.indir2 = 0 then [] else words (blockAt im ino.indir2)

/-- The blocks that a directory or the data slots of a file name. -/
def Entry.names (e : Entry) : List UInt32 :=
  if e.dir then if sIsDir (inodeAtBase im e.inum).mode then [(inodeAtBase im e.inum).directAt 0] else []
  else (dataPointers im (inodeAtBase im e.inum)).filter (· ≠ 0)

/-- The blocks of pointers of a file. -/
def Entry.tables (e : Entry) : List UInt32 :=
  if e.dir then [] else (tablePointers im (inodeAtBase im e.inum)).filter (· ≠ 0)

/-- Block `b` is that of a reachable directory or in a data slot of a reachable file. -/
def Recorded (b : ℕ) : Prop := ∃ e, Reachable im e ∧ b ∈ (e.names im).map UInt32.toNat

/-- Block `b` is referenced by a reachable inode. -/
def Referenced (b : ℕ) : Prop := ∃ e, Reachable im e ∧ b ∈ (e.names im ++ e.tables im).map UInt32.toNat

variable {im}

/-- Where nothing overflows, this is block `p`. -/
theorem blockAt_of_lt {p : UInt32} (h : p.toNat < 2 ^ 22) : blockAt im p = im.block p.toNat := by
  rw [blockAt, toNat_mul_1024_div (by omega)]

/-- The checker finds the inodes where they are. -/
theorem inodeAtBase_eq (hl : Loaded im) (i : ℕ) : inodeAtBase im i = regionInode im i := by
  rw [inodeAtBase, inodeBase_eq hl, regionInode]

theorem eq_of_diskBlock {n : ℕ} {b : Block} (h : diskBlock im n = .ok b) : b = im.block n := by
  rw [diskBlock, guard_eq_ok] at h
  exact (Except.ok.inj h.2).symm

theorem eq_of_diskAt {p : UInt32} {b : Block} (h : diskAt im p = .ok b) : b = blockAt im p :=
  eq_of_diskBlock h

theorem eq_of_diskAtInt {p : UInt32} {b : Block} (h : diskAtInt im p = .ok b) : b = blockAt im p := by
  rw [diskAtInt, guard_eq_ok] at h
  rw [eq_of_diskBlock h.2, blockAt_of_lt (by omega)]

theorem eq_of_diskBit {base i : ℕ} {v : Bool} (h : diskBit im base i = .ok v) :
    v = mapBit (fun k => im.block (base + k)) i := by
  rw [diskBit, guard_eq_ok] at h
  exact (Except.ok.inj h.2).symm

theorem eq_of_inode {i : ℕ} {ino : Inode} (h : inode im i = .ok ino) : ino = inodeAtBase im i := by
  rw [inode, guard_eq_ok] at h
  exact (Except.ok.inj h.2).symm

namespace Search

variable {s s' s'' : Search} {ps qs : List UInt32} {kids kids' : List Entry}

/-! ## Files -/

/-- The blocks `ps` are entered into `blkmap`. -/
structure Records (ps : List UInt32) (s s' : Search) : Prop where
  same : SameList s s'
  blkmap : ∀ b, s'.blkmap b = true ↔ s.blkmap b = true ∨ b ∈ ps.map UInt32.toNat

theorem SameList.records (h : SameList s s') (hb : s'.blkmap = s.blkmap) : Records [] s s' :=
  ⟨h, fun b => by rw [hb, List.map_nil, or_iff_left List.not_mem_nil]⟩

theorem records_print_ite (s : Search) (l : Line) (v : Bool) :
    Records [] s (if v then s else s.print l) := by
  refine (sameList_print_ite s l v).records ?_
  split <;> rfl

theorem Records.trans (h : Records ps s s') (h' : Records qs s' s'') : Records (ps ++ qs) s s'' :=
  ⟨h.same.trans h'.same, fun b => by
    rw [h'.blkmap, h.blkmap, List.map_append, List.mem_append, or_assoc]⟩

theorem records_of_setSeen {i : UInt32} (h : s.setSeen im i.toNat = .ok s') : Records [i] s s' := by
  rw [setSeen, guard_eq_ok] at h
  obtain rfl := Except.ok.inj h.2
  refine ⟨⟨rfl, rfl, rfl⟩, fun b => ?_⟩
  rw [List.map_singleton, List.mem_singleton]
  show update s.blkmap i.toNat true b = true ↔ _
  rw [update_apply]
  split
  · next hb => exact iff_of_true rfl (Or.inr hb)
  · next hb => rw [or_iff_left hb]

theorem records_of_seeBlock {p : UInt32} (h : s.seeBlock im p = .ok s') :
    Records ([p].filter (· ≠ 0)) s s' := by
  unfold seeBlock at h
  split at h
  · next h0 =>
    obtain rfl := Except.ok.inj h
    rw [h0]
    exact SameList.refl.records rfl
  · next h0 =>
    rw [bind_eq_ok] at h
    obtain ⟨t, ht, h⟩ := h
    rw [bind_eq_ok] at h
    obtain ⟨used, -, h⟩ := h
    obtain rfl := Except.ok.inj h
    have hset := ((sameList_print s (.block p)).records rfl).trans (records_of_setSeen ht)
    have hfilter : [p].filter (· ≠ 0) = [p] := List.filter_cons_of_pos (by simpa using h0)
    rw [hfilter]
    exact hset.trans (records_print_ite t (.blockFree p) used)

theorem records_of_seeBlocks (h : s.seeBlocks im ps = .ok s') : Records (ps.filter (· ≠ 0)) s s' := by
  induction ps generalizing s with
  | nil =>
    obtain rfl := Except.ok.inj h
    exact SameList.refl.records rfl
  | cons p ps ih =>
    rw [seeBlocks, bind_eq_ok] at h
    obtain ⟨t, ht, h⟩ := h
    rw [← List.singleton_append, List.filter_append]
    exact (records_of_seeBlock ht).trans (ih h)

theorem records_of_seeLevel1 (h : s.seeLevel1 im ps = .ok s') :
    Records ((ps.flatMap fun p => if p = 0 then [] else words (blockAt im p)).filter (· ≠ 0)) s s' := by
  induction ps generalizing s with
  | nil =>
    obtain rfl := Except.ok.inj h
    exact SameList.refl.records rfl
  | cons p ps ih =>
    rw [List.flatMap_cons]
    unfold seeLevel1 at h
    split at h
    · next h0 =>
      rw [if_pos h0, List.nil_append]
      exact ih h
    · next h0 =>
      rw [bind_eq_ok] at h
      obtain ⟨buf, hbuf, h⟩ := h
      obtain rfl := eq_of_diskAtInt hbuf
      rw [bind_eq_ok] at h
      obtain ⟨t, ht, h⟩ := h
      rw [if_neg h0, List.filter_append]
      exact (records_of_seeBlocks ht).trans (ih h)

theorem records_of_seeIndir1 {p : UInt32} (h : s.seeIndir1 im p = .ok s') :
    Records ((if p = 0 then [] else words (blockAt im p)).filter (· ≠ 0)) s s' := by
  unfold seeIndir1 at h
  split at h
  · next h0 =>
    obtain rfl := Except.ok.inj h
    rw [if_pos h0]
    exact SameList.refl.records rfl
  · next h0 =>
    rw [bind_eq_ok] at h
    obtain ⟨buf, hbuf, h⟩ := h
    obtain rfl := eq_of_diskAt hbuf
    rw [if_neg h0]
    exact records_of_seeBlocks h

theorem records_of_seeIndir2 {p : UInt32} (h : s.seeIndir2 im p = .ok s') :
    Records ((if p = 0 then [] else
      (words (blockAt im p)).flatMap fun p => if p = 0 then [] else words (blockAt im p)).filter
        (· ≠ 0)) s s' := by
  unfold seeIndir2 at h
  split at h
  · next h0 =>
    obtain rfl := Except.ok.inj h
    rw [if_pos h0]
    exact SameList.refl.records rfl
  · next h0 =>
    rw [bind_eq_ok] at h
    obtain ⟨buf, hbuf, h⟩ := h
    obtain rfl := eq_of_diskAt hbuf
    rw [if_neg h0]
    exact records_of_seeLevel1 h

/-- A file's data slots are recorded. -/
theorem records_of_visitFile {inum : ℕ} {ino : Inode} (h : s.visitFile im inum ino = .ok s') :
    Records ((dataPointers im ino).filter (· ≠ 0)) s s' := by
  rw [visitFile, bind_eq_ok] at h
  obtain ⟨t, ht, h⟩ := h
  rw [bind_eq_ok] at h
  obtain ⟨u, hu, h⟩ := h
  have hprint : Records [] s (s.print (.file inum ino.uid ino.gid ino.mode ino.size)) :=
    (sameList_print s _).records rfl
  rw [dataPointers, List.filter_append, List.filter_append]
  exact (hprint.trans (records_of_seeBlocks ht)).trans
    ((records_of_seeIndir1 hu).trans (records_of_seeIndir2 h))

/-! ## Directories -/

/-- `imap` marks the inodes of the work list, and each is there once. -/
structure Marks (s : Search) : Prop where
  marked : ∀ i, s.imap i = true ↔ i ∈ s.list.map Entry.inum
  nodup : (s.list.map Entry.inum).Nodup

theorem SameList.marks (h : SameList s s') (hs : Marks s) : Marks s' := by
  refine ⟨?_, ?_⟩
  · rw [h.imap, h.list]
    exact hs.marked
  · rw [h.list]
    exact hs.nodup

/-- Marking an inode that is not on the work list and putting it there. -/
theorem Marks.append (hs : Marks s) {e : Entry} (hnot : s.imap e.inum = false)
    (himap : s'.imap = update s.imap e.inum true) (hlist : s'.list = s.list ++ [e]) : Marks s' := by
  have hmap : s'.list.map Entry.inum = s.list.map Entry.inum ++ [e.inum] := by
    rw [hlist, List.map_append, List.map_singleton]
  refine ⟨fun i => ?_, ?_⟩
  · rw [himap, hmap, List.mem_append, List.mem_singleton, update_apply, ← hs.marked]
    split
    · next hi => exact iff_of_true rfl (Or.inr hi)
    · next hi => rw [or_iff_left hi]
  · rw [hmap]
    refine List.nodup_append.mpr ⟨hs.nodup, List.nodup_singleton _, fun a ha b hb hab => ?_⟩
    rw [List.mem_singleton] at hb
    rw [← hs.marked, hab, hb, hnot] at ha
    exact Bool.false_ne_true ha

/-- The entries `kids` are put on the work list and the blocks `ps` entered into `blkmap`. -/
structure Adds (kids : List Entry) (ps : List UInt32) (s s' : Search) : Prop where
  list : s'.list = s.list ++ kids
  tail : s'.tail = s.tail
  marks : Marks s'
  blkmap : ∀ b, s'.blkmap b = true ↔ s.blkmap b = true ∨ b ∈ ps.map UInt32.toNat

theorem Records.adds (h : Records ps s s') (hs : Marks s) : Adds [] ps s s' :=
  ⟨h.same.list.trans (List.append_nil _).symm, h.same.tail, h.same.marks hs, h.blkmap⟩

theorem Adds.trans (h : Adds kids ps s s') (h' : Adds kids' qs s' s'') :
    Adds (kids ++ kids') (ps ++ qs) s s'' where
  list := by rw [h'.list, h.list, List.append_assoc]
  tail := h'.tail.trans h.tail
  marks := h'.marks
  blkmap := fun b => by rw [h'.blkmap, h.blkmap, List.map_append, List.mem_append, or_assoc]

theorem adds_of_visitEntry (hs : Marks s) {inum : ℕ} {d : Dirent}
    (h : s.visitEntry im inum d = .ok (false, s')) : Adds (entryTarget im d).toList [] s s' := by
  unfold visitEntry at h
  by_cases hv : d.valid
  case neg =>
    have htarget : entryTarget im d = none := if_neg fun h => hv h.1
    rw [if_neg hv] at h
    obtain ⟨-, rfl⟩ := Prod.mk.inj (Except.ok.inj h)
    rw [htarget]
    exact (SameList.refl.records rfl).adds hs
  have hprint : Records [] s (s.print (.entry d)) := (sameList_print s _).records rfl
  rw [if_pos hv] at h
  dsimp only at h
  by_cases hi : d.inode.toNat < numInodes im
  case neg =>
    have htarget : entryTarget im d = none := if_neg fun h => hi h.2
    rw [if_pos (not_lt.1 hi)] at h
    obtain ⟨-, rfl⟩ := Prod.mk.inj (Except.ok.inj h)
    rw [htarget]
    exact (hprint.trans ((sameList_print _ (.invalidInode _)).records rfl)).adds hs
  have htarget : entryTarget im d = some ⟨d.isDir, d.inode.toNat⟩ := if_pos ⟨hv, hi⟩
  rw [if_neg (not_le.2 hi), bind_eq_ok] at h
  obtain ⟨met, hmet, h⟩ := h
  rw [Search.met, guard_eq_ok] at hmet
  obtain rfl := Except.ok.inj hmet.2
  split at h
  · exact absurd (congrArg Prod.fst (Except.ok.inj h)) (by simp)
  next hnot =>
  rw [bind_eq_ok] at h
  obtain ⟨t, ht, h⟩ := h
  rw [setMet, guard_eq_ok] at ht
  obtain rfl := Except.ok.inj ht.2
  rw [bind_eq_ok] at h
  obtain ⟨used, -, h⟩ := h
  rw [bind_eq_ok] at h
  obtain ⟨u, hu, h⟩ := h
  rw [Search.append, guard_eq_ok] at hu
  obtain rfl := Except.ok.inj hu.2
  obtain ⟨-, rfl⟩ := Prod.mk.inj (Except.ok.inj h)
  rw [htarget]
  have hnot : s.imap d.inode.toNat = false := Bool.of_not_eq_true hnot
  cases used <;>
    exact ⟨rfl, rfl, hs.append (e := ⟨d.isDir, d.inode.toNat⟩) hnot rfl rfl,
      fun b => (or_iff_left List.not_mem_nil).symm⟩

theorem adds_of_visitEntries (hs : Marks s) {inum : ℕ} {ds : List Dirent}
    (h : s.visitEntries im inum ds = .ok (false, s')) :
    Adds (ds.filterMap (entryTarget im)) [] s s' := by
  induction ds generalizing s with
  | nil =>
    obtain ⟨-, rfl⟩ := Prod.mk.inj (Except.ok.inj h)
    exact (SameList.refl.records rfl).adds hs
  | cons d ds ih =>
    rw [visitEntries, bind_eq_ok] at h
    obtain ⟨⟨failed, t⟩, ht, h⟩ := h
    cases failed with
    | true => exact absurd (congrArg Prod.fst (Except.ok.inj h)) (by simp)
    | false =>
      have hd := adds_of_visitEntry hs ht
      rw [filterMap_cons_toList]
      exact hd.trans (ih hd.marks h)

theorem adds_of_visitDir (hs : Marks s) {inum : ℕ} {ino : Inode}
    (h : s.visitDir im inum ino = .ok (false, s')) :
    Adds ((dirents (blockAt im (ino.directAt 0))).filterMap (entryTarget im)) [ino.directAt 0] s s' := by
  unfold visitDir at h
  dsimp only at h
  rw [bind_eq_ok] at h
  obtain ⟨de, hde, h⟩ := h
  obtain rfl := eq_of_diskAt hde
  rw [bind_eq_ok] at h
  obtain ⟨used, -, h⟩ := h
  rw [bind_eq_ok] at h
  obtain ⟨t, ht, h⟩ := h
  have hprint : Records [] s (s.print (.directory inum (ino.directAt 0))) :=
    (sameList_print s _).records rfl
  have hset := ((hprint.trans (records_print_ite _ _ used)).trans (records_of_setSeen ht)).adds hs
  exact hset.trans (adds_of_visitEntries hset.marks h)

/-! ## The loop -/

/-- One iteration. -/
theorem adds_of_visit (hs : Marks s) {e : Entry} (h : s.visit im e = .ok (false, s')) :
    Adds (WorkList.children (leads im) (List.range 32) e) (e.names im) s s' := by
  unfold visit at h
  rw [bind_eq_ok] at h
  obtain ⟨ino, hino, h⟩ := h
  obtain rfl := eq_of_inode hino
  by_cases hexp : Expanded im e
  · have hchildren : WorkList.children (leads im) (List.range 32) e =
        (dirents (blockAt im ((inodeAtBase im e.inum).directAt 0))).filterMap (entryTarget im) := by
      rw [dirents, List.filterMap_map]
      exact List.filterMap_congr fun i _ => if_pos hexp
    rw [hchildren, Entry.names, if_pos hexp.1, if_pos hexp.2]
    simp only [hexp.1, hexp.2] at h
    exact adds_of_visitDir hs h
  · have hchildren : WorkList.children (leads im) (List.range 32) e = [] :=
      List.filterMap_eq_nil_iff.mpr fun i _ => if_neg hexp
    rw [hchildren, Entry.names]
    cases hdir : e.dir with
    | false =>
      rw [hdir] at h
      obtain ⟨t, ht, h⟩ := bind_eq_ok.1 h
      obtain ⟨-, rfl⟩ := Prod.mk.inj (Except.ok.inj h)
      exact (records_of_visitFile ht).adds hs
    | true =>
      have hmode : sIsDir (inodeAtBase im e.inum).mode = false := by
        simpa [Expanded, hdir] using hexp
      simp only [hdir, hmode] at h
      obtain ⟨-, rfl⟩ := Prod.mk.inj (Except.ok.inj h)
      rw [hmode]
      exact ((sameList_print s _).records rfl).adds hs

variable (im) in
/-- The walk has got as far as `tail`: `blkmap` has the blocks that the entries before it name. -/
structure Walked (s : Search) : Prop where
  marks : Marks s
  traversal : WorkList.Traversal (leads im) (List.range 32) Entry.inum ⟨true, 1⟩ s.list s.tail
  blkmap : ∀ b, s.blkmap b = true ↔ ∃ e ∈ s.list.take s.tail, b ∈ (e.names im).map UInt32.toNat

theorem Walked.next (hs : Walked im s) (ht : s.tail < s.list.length)
    (h : Adds (WorkList.children (leads im) (List.range 32) s.list[s.tail]) (s.list[s.tail].names im)
      { s with tail := s.tail + 1 } s') : Walked im s' := by
  have hlist : s'.list = s.list ++ _ := h.list
  have htail : s'.tail = s.tail + 1 := h.tail
  have hnodup := h.marks.nodup
  rw [hlist] at hnodup
  refine ⟨h.marks, ?_, fun b => ?_⟩
  · rw [hlist, htail]
    exact .visit ht hs.traversal hnodup
  · rw [h.blkmap, hlist, htail, List.take_append_of_le_length ht, List.take_add_one,
      List.getElem?_eq_getElem ht, Option.toList_some]
    simp only [List.mem_append, List.mem_singleton, or_and_right, exists_or, exists_eq_left]
    exact or_congr_left (hs.blkmap b)

/-- **The loop.** -/
theorem walked_of_loop {fuel : ℕ} (hs : Walked im s) (h : loop im fuel s = .ok (false, s')) :
    Walked im s' ∧ s'.tail = s'.list.length := by
  induction fuel generalizing s with
  | zero => exact absurd h (by simp [loop])
  | succ fuel ih =>
    rw [loop] at h
    split at h
    · next hdone =>
      obtain ⟨-, rfl⟩ := Prod.mk.inj (Except.ok.inj h)
      exact ⟨hs, hdone.symm⟩
    · have ht : s.tail < s.list.length := lt_of_le_of_ne hs.traversal.le_length (Ne.symm ‹_›)
      rw [List.getElem?_eq_getElem ht] at h
      dsimp only at h
      rw [bind_eq_ok] at h
      obtain ⟨⟨failed, t⟩, hvisit, h⟩ := h
      cases failed with
      | true => exact absurd (congrArg Prod.fst (Except.ok.inj h)) (by simp)
      | false =>
        have hmarks : Marks { s with tail := s.tail + 1 } := ⟨hs.marks.marked, hs.marks.nodup⟩
        exact ih (hs.next ht (adds_of_visit hmarks hvisit)) h

theorem walked_of_start (h : start im = .ok s) : Walked im s := by
  rw [start, bind_eq_ok] at h
  obtain ⟨t, ht, h⟩ := h
  rw [Search.append, guard_eq_ok] at ht
  obtain rfl := Except.ok.inj ht.2
  rw [setMet, guard_eq_ok] at h
  obtain rfl := Except.ok.inj h.2
  have hempty : Marks ⟨fun _ => false, fun _ => false, [], 0, []⟩ := ⟨fun i => by simp, List.nodup_nil⟩
  exact ⟨hempty.append (e := ⟨true, 1⟩) rfl rfl rfl, .start, fun b => by simp⟩

/-- After the walk `blkmap` has the blocks that reachable entries name. -/
theorem Walked.blkmap_iff (hs : Walked im s) (hdone : s.tail = s.list.length) (b : ℕ) :
    s.blkmap b = true ↔ Recorded im b := by
  have htrav := hs.traversal
  rw [hdone] at htrav
  rw [hs.blkmap, hdone, List.take_length]
  exact exists_congr fun e => and_congr_left fun _ => htrav.mem_iff

/-- The blocks that are listed at the end. -/
theorem eq_of_unreachableBlocks {lost : List ℕ} (h : s.unreachableBlocks im = .ok lost) :
    lost = (List.range' (firstData im) ((sb im).numBlocks.toNat - firstData im)).filter fun b =>
      s.blkmap b && !marked im b := by
  refine eq_filter_of_ok h fun b v hv => ?_
  rw [bind_eq_ok] at hv
  obtain ⟨seen, hseen, hv⟩ := hv
  rw [Search.seen, guard_eq_ok] at hseen
  obtain rfl := Except.ok.inj hseen.2
  split at hv
  · next hb =>
    rw [bind_eq_ok] at hv
    obtain ⟨used, hused, hv⟩ := hv
    obtain rfl := eq_of_diskBit hused
    obtain rfl := Except.ok.inj hv
    rw [hb]
    rfl
  · next hb =>
    obtain rfl := Except.ok.inj hv
    rw [Bool.of_not_eq_true hb]
    rfl

end Search

end ReadImg

end Fsx600
