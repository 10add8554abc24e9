import Fsx600.Spec.Recording

/-!
# What the image checker prints

The log of the walk, on every image.  Nothing is assumed of the image, as in `Recording`: that
an iteration has returned says that what it looked at was there.

An entry of the work list has its lines (`Entry.lines`), which depend on the image alone.  An
iteration on it adds exactly these (`prints_of_visit`), or it ends the loop, and then one of the
entries that it was about to put on the list carries an inode number that is on it already
(`twice_of_visit`).  So after the loop the log is that of the whole list, in order
(`logged_of_loop`).
-/

namespace Fsx600

namespace ReadImg

open Checked Function

variable (im : Image)

/-! ## The lines of an entry -/

/-- The lines of a pointer that is not zero. -/
def blockLines (p : UInt32) : List Line := .block p :: if marked im p.toNat then [] else [.blockFree p]

/-- The lines of a slot of a directory. -/
def direntLines (d : Dirent) : List Line :=
  if d.valid then
    .entry d :: if numInodes im ≤ d.inode.toNat then [.invalidInode d.inode.toNat]
      else if inUse im d.inode.toNat then [] else [.inodeFree d.inode.toNat]
  else []

/-- The lines of a file. -/
def fileLines (inum : ℕ) (ino : Inode) : List Line :=
  .file inum ino.uid ino.gid ino.mode ino.size ::
    ((dataPointers im ino).filter (· ≠ 0)).flatMap (blockLines im)

/-- The lines of a directory with its block at `p`. -/
def dirLines (inum : ℕ) (p : UInt32) : List Line :=
  .directory inum p :: ((if marked im p.toNat then [] else [.blockFree p]) ++
    (dirents (blockAt im p)).flatMap (direntLines im))

/-- The lines of an entry of the work list. -/
def Entry.lines (e : Entry) : List Line :=
  if e.dir then
    if sIsDir (inodeAtBase im e.inum).mode then dirLines im e.inum ((inodeAtBase im e.inum).directAt 0)
    else [.notDirectory e.inum]
  else fileLines im e.inum (inodeAtBase im e.inum)

variable {im}

namespace Search

variable {s s' s'' : Search} {ps : List UInt32} {ls ls' : List Line}

/-- The lines `ls` are added to the log. -/
def Prints (ls : List Line) (s s' : Search) : Prop := s'.log = ls.reverse ++ s.log

theorem Prints.refl (s : Search) : Prints [] s s := rfl

theorem Prints.trans (h : Prints ls s s') (h' : Prints ls' s' s'') : Prints (ls ++ ls') s s'' := by
  unfold Prints at h h' ⊢
  rw [h', h, List.reverse_append, List.append_assoc]

theorem prints_print (s : Search) (l : Line) : Prints [l] s (s.print l) := rfl

theorem prints_print_ite (s : Search) (l : Line) (v : Bool) :
    Prints (if v then [] else [l]) s (if v then s else s.print l) := by
  split
  · exact .refl s
  · exact prints_print s l

theorem prints_of_setSeen {i : ℕ} (h : s.setSeen im i = .ok s') : Prints [] s s' := by
  rw [setSeen, guard_eq_ok] at h
  obtain rfl := Except.ok.inj h.2
  exact .refl s

/-! ## Files -/

theorem prints_of_seeBlock {p : UInt32} (h : s.seeBlock im p = .ok s') :
    Prints (([p].filter (· ≠ 0)).flatMap (blockLines im)) s s' := by
  unfold seeBlock at h
  split at h
  · next h0 =>
    obtain rfl := Except.ok.inj h
    rw [h0]
    exact .refl s
  · next h0 =>
    rw [bind_eq_ok] at h
    obtain ⟨t, ht, h⟩ := h
    rw [bind_eq_ok] at h
    obtain ⟨used, hused, h⟩ := h
    obtain rfl := eq_of_diskBit hused
    obtain rfl := Except.ok.inj h
    have hfilter : [p].filter (· ≠ 0) = [p] := List.filter_cons_of_pos (by simpa using h0)
    rw [hfilter, List.flatMap_singleton]
    exact ((prints_print s (.block p)).trans (prints_of_setSeen ht)).trans (prints_print_ite t _ _)

theorem prints_of_seeBlocks (h : s.seeBlocks im ps = .ok s') :
    Prints ((ps.filter (· ≠ 0)).flatMap (blockLines im)) s s' := by
  induction ps generalizing s with
  | nil =>
    obtain rfl := Except.ok.inj h
    exact .refl s
  | cons p ps ih =>
    rw [seeBlocks, bind_eq_ok] at h
    obtain ⟨t, ht, h⟩ := h
    rw [← List.singleton_append, List.filter_append, List.flatMap_append]
    exact (prints_of_seeBlock ht).trans (ih h)

theorem prints_of_seeLevel1 (h : s.seeLevel1 im ps = .ok s') :
    Prints (((ps.flatMap fun p => if p = 0 then [] else words (blockAt im p)).filter (· ≠ 0)).flatMap
      (blockLines im)) s s' := by
  induction ps generalizing s with
  | nil =>
    obtain rfl := Except.ok.inj h
    exact .refl s
  | cons p ps ih =>
    rw [List.flatMap_cons]
    unfold seeLevel1 at h
    split at h
    · next h0 =>
      rw [if_pos h0, List.nil_append]
      exact ih h
    · next h0 =>
      rw [bind_eq_ok] at h
      obtain ⟨buf, hbuf, h⟩ := h
      obtain rfl := eq_of_diskAtInt hbuf
      rw [bind_eq_ok] at h
      obtain ⟨t, ht, h⟩ := h
      rw [if_neg h0, List.filter_append, List.flatMap_append]
      exact (prints_of_seeBlocks ht).trans (ih h)

theorem prints_of_seeIndir1 {p : UInt32} (h : s.seeIndir1 im p = .ok s') :
    Prints (((if p = 0 then [] else words (blockAt im p)).filter (· ≠ 0)).flatMap (blockLines im)) s s' := by
  unfold seeIndir1 at h
  split at h
  · next h0 =>
    obtain rfl := Except.ok.inj h
    rw [if_pos h0]
    exact .refl s
  · next h0 =>
    rw [bind_eq_ok] at h
    obtain ⟨buf, hbuf, h⟩ := h
    obtain rfl := eq_of_diskAt hbuf
    rw [if_neg h0]
    exact prints_of_seeBlocks h

theorem prints_of_seeIndir2 {p : UInt32} (h : s.seeIndir2 im p = .ok s') :
    Prints (((if p = 0 then [] else
      (words (blockAt im p)).flatMap fun p => if p = 0 then [] else words (blockAt im p)).filter
        (· ≠ 0)).flatMap (blockLines im)) s s' := by
  unfold seeIndir2 at h
  split at h
  · next h0 =>
    obtain rfl := Except.ok.inj h
    rw [if_pos h0]
    exact .refl s
  · next h0 =>
    rw [bind_eq_ok] at h
    obtain ⟨buf, hbuf, h⟩ := h
    obtain rfl := eq_of_diskAt hbuf
    rw [if_neg h0]
    exact prints_of_seeLevel1 h

/-- A file prints the pointers of its data slots. -/
theorem prints_of_visitFile {inum : ℕ} {ino : Inode} (h : s.visitFile im inum ino = .ok s') :
    Prints (fileLines im inum ino) s s' := by
  rw [visitFile, bind_eq_ok] at h
  obtain ⟨t, ht, h⟩ := h
  rw [bind_eq_ok] at h
  obtain ⟨u, hu, h⟩ := h
  rw [fileLines, dataPointers, List.filter_append, List.filter_append, List.flatMap_append,
    List.flatMap_append, ← List.singleton_append]
  exact (prints_print s _).trans ((prints_of_seeBlocks ht).trans
    ((prints_of_seeIndir1 hu).trans (prints_of_seeIndir2 h)))

/-! ## Directories -/

theorem prints_of_visitEntry {inum : ℕ} {d : Dirent} (h : s.visitEntry im inum d = .ok (false, s')) :
    Prints (direntLines im d) s s' := by
  unfold visitEntry at h
  unfold direntLines
  by_cases hv : d.valid
  case neg =>
    rw [if_neg hv] at h ⊢
    obtain ⟨-, rfl⟩ := Prod.mk.inj (Except.ok.inj h)
    exact .refl s
  rw [if_pos hv] at h ⊢
  dsimp only at h
  by_cases hi : numInodes im ≤ d.inode.toNat
  · rw [if_pos hi] at h ⊢
    obtain ⟨-, rfl⟩ := Prod.mk.inj (Except.ok.inj h)
    exact rfl
  rw [if_neg hi, bind_eq_ok] at h
  rw [if_neg hi]
  obtain ⟨met, -, h⟩ := h
  split at h
  · exact absurd (congrArg Prod.fst (Except.ok.inj h)) (by simp)
  rw [bind_eq_ok] at h
  obtain ⟨t, ht, h⟩ := h
  rw [setMet, guard_eq_ok] at ht
  obtain rfl := Except.ok.inj ht.2
  rw [bind_eq_ok] at h
  obtain ⟨used, hused, h⟩ := h
  obtain rfl : used = inUse im d.inode.toNat := eq_of_diskBit hused
  rw [bind_eq_ok] at h
  obtain ⟨u, hu, h⟩ := h
  rw [Search.append, guard_eq_ok] at hu
  obtain rfl := Except.ok.inj hu.2
  obtain ⟨-, rfl⟩ := Prod.mk.inj (Except.ok.inj h)
  cases inUse im d.inode.toNat <;> rfl

theorem prints_of_visitEntries {inum : ℕ} {ds : List Dirent}
    (h : s.visitEntries im inum ds = .ok (false, s')) : Prints (ds.flatMap (direntLines im)) s s' := by
  induction ds generalizing s with
  | nil =>
    obtain ⟨-, rfl⟩ := Prod.mk.inj (Except.ok.inj h)
    exact .refl s
  | cons d ds ih =>
    rw [visitEntries, bind_eq_ok] at h
    obtain ⟨⟨failed, t⟩, ht, h⟩ := h
    cases failed with
    | true => exact absurd (congrArg Prod.fst (Except.ok.inj h)) (by simp)
    | false => exact (prints_of_visitEntry ht).trans (ih h)

/-- What comes before the entries of a directory. -/
theorem visitDir_eq_ok {inum : ℕ} {ino : Inode} {r : Bool × Search} (h : s.visitDir im inum ino = .ok r) :
    ∃ t, t.visitEntries im inum (dirents (blockAt im (ino.directAt 0))) = .ok r ∧ SameList s t ∧
      Prints (.directory inum (ino.directAt 0) ::
        if marked im (ino.directAt 0).toNat then [] else [.blockFree (ino.directAt 0)]) s t := by
  unfold visitDir at h
  dsimp only at h
  rw [bind_eq_ok] at h
  obtain ⟨de, hde, h⟩ := h
  obtain rfl := eq_of_diskAt hde
  rw [bind_eq_ok] at h
  obtain ⟨used, hused, h⟩ := h
  obtain rfl := eq_of_diskBit hused
  rw [bind_eq_ok] at h
  obtain ⟨t, ht, h⟩ := h
  refine ⟨t, h, ?_, ?_⟩
  · exact ((sameList_print s _).trans (sameList_print_ite _ _ _)).trans (records_of_setSeen ht).same
  · have hrest := (prints_print_ite _ _ _).trans (prints_of_setSeen ht)
    rw [List.append_nil] at hrest
    exact (prints_print s _).trans hrest

/-- **One iteration** prints the lines of its entry. -/
theorem prints_of_visit {e : Entry} (h : s.visit im e = .ok (false, s')) : Prints (e.lines im) s s' := by
  unfold visit at h
  rw [bind_eq_ok] at h
  obtain ⟨ino, hino, h⟩ := h
  obtain rfl := eq_of_inode hino
  unfold Entry.lines
  cases hdir : e.dir with
  | false =>
    rw [hdir] at h
    obtain ⟨t, ht, h⟩ := bind_eq_ok.1 h
    obtain ⟨-, rfl⟩ := Prod.mk.inj (Except.ok.inj h)
    exact prints_of_visitFile ht
  | true =>
    cases hmode : sIsDir (inodeAtBase im e.inum).mode with
    | false =>
      simp only [hdir, hmode] at h
      obtain ⟨-, rfl⟩ := Prod.mk.inj (Except.ok.inj h)
      exact rfl
    | true =>
      simp only [hdir, hmode] at h
      obtain ⟨t, ht, -, hprint⟩ := visitDir_eq_ok h
      exact hprint.trans (prints_of_visitEntries ht)

/-! ## The loop error -/

theorem twice_of_visitEntry (hs : Marks s) {inum : ℕ} {d : Dirent}
    (h : s.visitEntry im inum d = .ok (true, s')) :
    ∃ e, entryTarget im d = some e ∧ e.inum ∈ s.list.map Entry.inum := by
  unfold visitEntry at h
  by_cases hv : d.valid
  case neg =>
    rw [if_neg hv] at h
    exact absurd (congrArg Prod.fst (Except.ok.inj h)) (by simp)
  rw [if_pos hv] at h
  dsimp only at h
  by_cases hi : numInodes im ≤ d.inode.toNat
  · rw [if_pos hi] at h
    exact absurd (congrArg Prod.fst (Except.ok.inj h)) (by simp)
  rw [if_neg hi, bind_eq_ok] at h
  obtain ⟨met, hmet, h⟩ := h
  rw [Search.met, guard_eq_ok] at hmet
  obtain rfl := Except.ok.inj hmet.2
  split at h
  · next hmarked =>
    exact ⟨⟨d.isDir, d.inode.toNat⟩, if_pos ⟨hv, not_le.1 hi⟩, (hs.marked _).1 hmarked⟩
  · obtain ⟨t, -, h⟩ := bind_eq_ok.1 h
    obtain ⟨used, -, h⟩ := bind_eq_ok.1 h
    obtain ⟨u, -, h⟩ := bind_eq_ok.1 h
    exact absurd (congrArg Prod.fst (Except.ok.inj h)) (by simp)

theorem twice_of_visitEntries (hs : Marks s) {inum : ℕ} {ds : List Dirent}
    (h : s.visitEntries im inum ds = .ok (true, s')) :
    ¬ ((s.list ++ ds.filterMap (entryTarget im)).map Entry.inum).Nodup := by
  induction ds generalizing s with
  | nil => exact absurd (congrArg Prod.fst (Except.ok.inj h)) (by simp)
  | cons d ds ih =>
    rw [visitEntries, bind_eq_ok] at h
    obtain ⟨⟨failed, t⟩, ht, h⟩ := h
    rw [filterMap_cons_toList]
    cases failed with
    | true =>
      obtain ⟨e, he, hmem⟩ := twice_of_visitEntry hs ht
      rw [he, Option.toList_some, List.singleton_append, List.map_append, List.map_cons]
      intro hn
      exact (List.nodup_append.1 hn).2.2 _ hmem _ List.mem_cons_self rfl
    | false =>
      have hd := adds_of_visitEntry hs ht
      rw [← List.append_assoc, ← hd.list]
      exact ih hd.marks h

/-- **An iteration that ends the loop** has an inode number a second time. -/
theorem twice_of_visit (hs : Marks s) {e : Entry} (h : s.visit im e = .ok (true, s')) :
    ¬ ((s.list ++ WorkList.children (leads im) (List.range 32) e).map Entry.inum).Nodup := by
  unfold visit at h
  rw [bind_eq_ok] at h
  obtain ⟨ino, hino, h⟩ := h
  obtain rfl := eq_of_inode hino
  by_cases hexp : Expanded im e
  · have hchildren : WorkList.children (leads im) (List.range 32) e =
        (dirents (blockAt im ((inodeAtBase im e.inum).directAt 0))).filterMap (entryTarget im) := by
      rw [dirents, List.filterMap_map]
      exact List.filterMap_congr fun i _ => if_pos hexp
    simp only [hexp.1, hexp.2] at h
    obtain ⟨t, ht, hsame, -⟩ := visitDir_eq_ok h
    rw [hchildren, ← hsame.list]
    exact twice_of_visitEntries (hsame.marks hs) ht
  · cases hdir : e.dir with
    | false =>
      rw [hdir] at h
      obtain ⟨t, -, h⟩ := bind_eq_ok.1 h
      exact absurd (congrArg Prod.fst (Except.ok.inj h)) (by simp)
    | true =>
      have hmode : sIsDir (inodeAtBase im e.inum).mode = false := by
        simpa [Expanded, hdir] using hexp
      simp only [hdir, hmode] at h
      exact absurd (congrArg Prod.fst (Except.ok.inj h)) (by simp)

/-! ## The loop -/

variable (im) in
/-- The log has the lines of the entries before `tail`, in order. -/
def Logged (s : Search) : Prop := s.log = ((s.list.take s.tail).flatMap (Entry.lines im)).reverse

theorem Logged.next (hs : Logged im s) (ht : s.tail < s.list.length)
    (h : Adds (WorkList.children (leads im) (List.range 32) s.list[s.tail]) ps
      { s with tail := s.tail + 1 } s')
    (hprint : Prints (s.list[s.tail].lines im) { s with tail := s.tail + 1 } s') : Logged im s' := by
  have hlist : s'.list = s.list ++ _ := h.list
  have htail : s'.tail = s.tail + 1 := h.tail
  have hlog : s'.log = (s.list[s.tail].lines im).reverse ++ s.log := hprint
  unfold Logged at hs ⊢
  rw [hlog, hs, hlist, htail, List.take_append_of_le_length ht, List.take_add_one,
    List.getElem?_eq_getElem ht, Option.toList_some, List.flatMap_append, List.flatMap_singleton,
    List.reverse_append]

/-- How the loop ends. -/
theorem logged_of_loop {fuel : ℕ} {failed : Bool} (hs : Walked im s) (hlog : Logged im s)
    (h : loop im fuel s = .ok (failed, s')) :
    failed = true ∧ WorkList.MetTwice (leads im) (List.range 32) Entry.inum ⟨true, 1⟩ ∨
      failed = false ∧ Logged im s' := by
  induction fuel generalizing s with
  | zero => exact absurd h (by simp [loop])
  | succ fuel ih =>
    rw [loop] at h
    split at h
    · obtain ⟨rfl, rfl⟩ := Prod.mk.inj (Except.ok.inj h)
      exact .inr ⟨rfl, hlog⟩
    · have ht : s.tail < s.list.length := lt_of_le_of_ne hs.traversal.le_length (Ne.symm ‹_›)
      rw [List.getElem?_eq_getElem ht] at h
      dsimp only at h
      rw [bind_eq_ok] at h
      obtain ⟨⟨failed', t⟩, hvisit, h⟩ := h
      have hmarks : Marks { s with tail := s.tail + 1 } := ⟨hs.marks.marked, hs.marks.nodup⟩
      cases failed' with
      | true =>
        obtain ⟨rfl, rfl⟩ := Prod.mk.inj (Except.ok.inj h)
        exact .inl ⟨rfl, hs.traversal.metTwice ht List.nodup_range (twice_of_visit hmarks hvisit)⟩
      | false =>
        have hadds := adds_of_visit hmarks hvisit
        exact ih (hs.next ht hadds) (hlog.next ht hadds (prints_of_visit hvisit)) h

theorem logged_of_start (h : start im = .ok s) : Logged im s := by
  rw [start, bind_eq_ok] at h
  obtain ⟨t, ht, h⟩ := h
  rw [Search.append, guard_eq_ok] at ht
  obtain rfl := Except.ok.inj ht.2
  rw [setMet, guard_eq_ok] at h
  obtain rfl := Except.ok.inj h.2
  rfl

end Search

end ReadImg

end Fsx600
