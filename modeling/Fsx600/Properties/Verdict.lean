import Fsx600.Spec.Reporting
import Fsx600.Properties.LostBlocks

/-!
# What the checker's verdict means

`read-img` is silent about an image when it prints no error and lists nothing as unreachable.
That is so for exactly the consistent images: no inode is met twice, every valid entry that can be
reached names an inode that is in the region and marked in use, every inode that an entry calls a
directory is one, every block that a directory or a data slot names is marked in use, and every
inode that is in use can be reached.

Nothing is assumed of the image but that the program comes to its end on it (`silent_iff`).  The
errors one by one are in `Reports`: each is printed exactly when what it says is the case
somewhere that can be reached.
-/

namespace Fsx600

namespace ReadImg

open Checked Function

variable {im : Image} {fuel : ℕ} {r : Survey}

/-- The lines that begin with `***ERROR***`. -/
def Line.IsError : Line → Prop
  | .blockFree _ | .notDirectory _ | .invalidInode _ | .loopFound _ | .inodeFree _ => True
  | .file _ _ _ _ _ | .block _ | .directory _ _ | .entry _ => False

variable (im) in
/-- A valid entry of a directory that the walk gets to. -/
def Shown (d : Dirent) : Prop := ∃ e, Reachable im e ∧ Expanded im e ∧
  d ∈ dirents (blockAt im ((inodeAtBase im e.inum).directAt 0)) ∧ d.valid = true

variable (im) in
/-- What the log and the work list have to do with the image. -/
structure Reports (s : Search) : Prop where
  /-- The lines of the entries, one after another. -/
  log : s.log.reverse = s.list.flatMap (Entry.lines im)
  /-- The work list has each entry that can be reached once. -/
  mem_list : ∀ e, e ∈ s.list ↔ Reachable im e
  nodup : (s.list.map Entry.inum).Nodup
  blockFree : ∀ p, .blockFree p ∈ s.log ↔
    ∃ e, Reachable im e ∧ p ∈ e.names im ∧ marked im p.toNat = false
  notDirectory : ∀ i, .notDirectory i ∈ s.log ↔
    ∃ e, Reachable im e ∧ e.dir = true ∧ e.inum = i ∧ sIsDir (inodeAtBase im i).mode = false
  invalidInode : ∀ j, .invalidInode j ∈ s.log ↔ ∃ d, Shown im d ∧ d.inode.toNat = j ∧ numInodes im ≤ j
  inodeFree : ∀ j, .inodeFree j ∈ s.log ↔
    ∃ d, Shown im d ∧ d.inode.toNat = j ∧ j < numInodes im ∧ inUse im j = false
  loopFound : ∀ i, .loopFound i ∉ s.log

variable (im) in
/-- An image with which nothing is wrong as far as the walk goes. -/
structure Consistent : Prop where
  once : ¬ WorkList.MetTwice (leads im) (List.range 32) Entry.inum ⟨true, 1⟩
  isDir : ∀ e, Reachable im e → e.dir = true → sIsDir (inodeAtBase im e.inum).mode = true
  marked : ∀ e, Reachable im e → ∀ p ∈ e.names im, marked im p.toNat = true
  inUse : ∀ d, Shown im d → d.inode.toNat < numInodes im ∧ inUse im d.inode.toNat = true
  reached : ∀ i, 1 ≤ i → i < numInodes im → ReadImg.inUse im i = true → ∃ e, Reachable im e ∧ e.inum = i

/-- No error is printed, and nothing is listed as unreachable. -/
structure Silent (r : Survey) (lost : Option (List ℕ)) : Prop where
  inodes : r.unreachable = some []
  blocks : lost = some []
  log : ∀ l ∈ r.search.log, ¬ l.IsError

/-! ## The lines of an entry -/

section Lines

variable {e : Entry} {d : Dirent} {p q : UInt32} {i j inum : ℕ} {ino : Inode}

theorem blockFree_mem_blockLines :
    .blockFree q ∈ blockLines im p ↔ q = p ∧ marked im p.toNat = false := by
  unfold blockLines
  cases marked im p.toNat <;> simp

theorem mem_direntLines {l : Line} : l ∈ direntLines im d ↔ d.valid = true ∧ (l = .entry d ∨
    (numInodes im ≤ d.inode.toNat ∧ l = .invalidInode d.inode.toNat) ∨
    (d.inode.toNat < numInodes im ∧ inUse im d.inode.toNat = false ∧ l = .inodeFree d.inode.toNat)) := by
  unfold direntLines
  by_cases hv : d.valid = true
  · rw [if_pos hv, List.mem_cons]
    by_cases hi : numInodes im ≤ d.inode.toNat
    · simp [hv, hi, not_lt.2 hi]
    · cases hu : inUse im d.inode.toNat <;> simp [hv, hi, not_le.1 hi]
  · simp [hv]

/-- What a file prints about blocks. -/
theorem blockFree_mem_fileLines : .blockFree q ∈ fileLines im inum ino ↔
    q ∈ (dataPointers im ino).filter (· ≠ 0) ∧ marked im q.toNat = false := by
  rw [fileLines, List.mem_cons, or_iff_right (by simp), List.mem_flatMap]
  constructor
  · rintro ⟨p, hp, hq⟩
    obtain ⟨rfl, hfree⟩ := blockFree_mem_blockLines.1 hq
    exact ⟨hp, hfree⟩
  · rintro ⟨hq, hfree⟩
    exact ⟨q, hq, blockFree_mem_blockLines.2 ⟨rfl, hfree⟩⟩

/-- A file prints no other error. -/
theorem eq_blockFree_of_mem_fileLines {l : Line} (h : l ∈ fileLines im inum ino) (hl : l.IsError) :
    ∃ q, l = .blockFree q := by
  rw [fileLines, List.mem_cons, List.mem_flatMap] at h
  obtain rfl | ⟨p, -, hp⟩ := h
  · exact hl.elim
  unfold blockLines at hp
  cases hm : marked im p.toNat <;> simp only [hm, if_true, Bool.false_eq_true, if_false, List.mem_cons,
    List.not_mem_nil, or_false] at hp
  · rcases hp with rfl | rfl
    · exact hl.elim
    · exact ⟨p, rfl⟩
  · subst hp
    exact hl.elim

/-- What a directory prints. -/
theorem mem_dirLines {l : Line} : l ∈ dirLines im inum p ↔ l = .directory inum p ∨
    (marked im p.toNat = false ∧ l = .blockFree p) ∨ ∃ d ∈ dirents (blockAt im p), l ∈ direntLines im d := by
  rw [dirLines, List.mem_cons, List.mem_append, List.mem_flatMap]
  refine or_congr_right (or_congr_left ?_)
  cases marked im p.toNat <;> simp

theorem lines_of_file (hdir : e.dir = false) : e.lines im = fileLines im e.inum (inodeAtBase im e.inum) := by
  rw [Entry.lines, hdir]
  rfl

theorem lines_of_expanded (hexp : Expanded im e) :
    e.lines im = dirLines im e.inum ((inodeAtBase im e.inum).directAt 0) := by
  rw [Entry.lines, if_pos hexp.1, if_pos hexp.2]

theorem lines_of_notDirectory (hdir : e.dir = true) (hmode : sIsDir (inodeAtBase im e.inum).mode = false) :
    e.lines im = [.notDirectory e.inum] := by
  rw [Entry.lines, if_pos hdir, if_neg (by simp [hmode])]

/-- The three kinds of entries. -/
theorem entry_cases (im : Image) (e : Entry) : e.dir = false ∨ Expanded im e ∨
    (e.dir = true ∧ sIsDir (inodeAtBase im e.inum).mode = false) := by
  cases hdir : e.dir with
  | false => exact .inl rfl
  | true =>
    cases hmode : sIsDir (inodeAtBase im e.inum).mode with
    | false => exact .inr (.inr ⟨rfl, rfl⟩)
    | true => exact .inr (.inl ⟨hdir, hmode⟩)

theorem blockFree_mem_lines : .blockFree q ∈ e.lines im ↔ q ∈ e.names im ∧ marked im q.toNat = false := by
  rcases entry_cases im e with hdir | hexp | ⟨hdir, hmode⟩
  · rw [lines_of_file hdir, Entry.names, hdir]
    exact blockFree_mem_fileLines
  · rw [lines_of_expanded hexp, Entry.names, if_pos hexp.1, if_pos hexp.2, mem_dirLines, List.mem_singleton]
    simp only [mem_direntLines]
    constructor
    · rintro (h | ⟨hfree, h⟩ | ⟨d, -, -, h | ⟨-, h⟩ | ⟨-, -, h⟩⟩)
      · cases h
      · cases h
        exact ⟨rfl, hfree⟩
      · cases h
      · cases h
      · cases h
    · rintro ⟨rfl, hfree⟩
      exact .inr (.inl ⟨hfree, rfl⟩)
  · rw [lines_of_notDirectory hdir hmode, Entry.names, if_pos hdir, if_neg (by simp [hmode])]
    simp

theorem notDirectory_mem_lines : .notDirectory i ∈ e.lines im ↔
    e.dir = true ∧ e.inum = i ∧ sIsDir (inodeAtBase im i).mode = false := by
  rcases entry_cases im e with hdir | hexp | ⟨hdir, hmode⟩
  · rw [lines_of_file hdir]
    constructor
    · intro h
      obtain ⟨q, hq⟩ := eq_blockFree_of_mem_fileLines h trivial
      cases hq
    · rintro ⟨h, -⟩
      exact absurd (hdir.symm.trans h) Bool.false_ne_true
  · rw [lines_of_expanded hexp, mem_dirLines]
    simp only [mem_direntLines]
    constructor
    · rintro (h | ⟨-, h⟩ | ⟨d, -, -, h | ⟨-, h⟩ | ⟨-, -, h⟩⟩) <;> cases h
    · rintro ⟨-, rfl, hmode⟩
      exact absurd (hmode.symm.trans hexp.2) Bool.false_ne_true
  · rw [lines_of_notDirectory hdir hmode, List.mem_singleton]
    constructor
    · intro h
      cases h
      exact ⟨hdir, rfl, hmode⟩
    · rintro ⟨-, rfl, -⟩
      rfl

/-- The errors about entries come from directories. -/
theorem mem_lines_of_dirent {l : Line} (h1 : ∀ q, l ≠ .blockFree q) (h2 : ∀ i, l ≠ .notDirectory i)
    (h3 : ∀ i q, l ≠ .directory i q) (hl : l.IsError) : l ∈ e.lines im ↔ Expanded im e ∧
      ∃ d ∈ dirents (blockAt im ((inodeAtBase im e.inum).directAt 0)), l ∈ direntLines im d := by
  rcases entry_cases im e with hdir | hexp | ⟨hdir, hmode⟩
  · rw [lines_of_file hdir]
    constructor
    · intro h
      obtain ⟨q, hq⟩ := eq_blockFree_of_mem_fileLines h hl
      exact absurd hq (h1 q)
    · rintro ⟨hexp, -⟩
      exact absurd (hdir.symm.trans hexp.1) Bool.false_ne_true
  · rw [lines_of_expanded hexp, mem_dirLines, or_iff_right (h3 _ _), or_iff_right fun h => h1 _ h.2,
      and_iff_right hexp]
  · rw [lines_of_notDirectory hdir hmode, List.mem_singleton]
    refine iff_of_false (h2 _) ?_
    rintro ⟨hexp, -⟩
    exact absurd (hmode.symm.trans hexp.2) Bool.false_ne_true

theorem invalidInode_mem_lines : .invalidInode j ∈ e.lines im ↔ Expanded im e ∧
    ∃ d ∈ dirents (blockAt im ((inodeAtBase im e.inum).directAt 0)), d.valid = true ∧
      d.inode.toNat = j ∧ numInodes im ≤ j := by
  rw [mem_lines_of_dirent (by simp) (by simp) (by simp) (show Line.IsError (.invalidInode j) from trivial)]
  refine and_congr_right fun _ => exists_congr fun d => and_congr_right fun _ => ?_
  rw [mem_direntLines]
  constructor
  · rintro ⟨hv, h | ⟨hi, h⟩ | ⟨-, -, h⟩⟩
    · cases h
    · cases h
      exact ⟨hv, rfl, hi⟩
    · cases h
  · rintro ⟨hv, rfl, hi⟩
    exact ⟨hv, .inr (.inl ⟨hi, rfl⟩)⟩

theorem inodeFree_mem_lines : .inodeFree j ∈ e.lines im ↔ Expanded im e ∧
    ∃ d ∈ dirents (blockAt im ((inodeAtBase im e.inum).directAt 0)), d.valid = true ∧
      d.inode.toNat = j ∧ j < numInodes im ∧ inUse im j = false := by
  rw [mem_lines_of_dirent (by simp) (by simp) (by simp) (show Line.IsError (.inodeFree j) from trivial)]
  refine and_congr_right fun _ => exists_congr fun d => and_congr_right fun _ => ?_
  rw [mem_direntLines]
  constructor
  · rintro ⟨hv, h | ⟨-, h⟩ | ⟨hi, hfree, h⟩⟩
    · cases h
    · cases h
    · cases h
      exact ⟨hv, rfl, hi, hfree⟩
  · rintro ⟨hv, rfl, hi, hfree⟩
    exact ⟨hv, .inr (.inr ⟨hi, hfree, rfl⟩)⟩

theorem loopFound_notMem_lines : .loopFound i ∉ e.lines im := by
  rw [mem_lines_of_dirent (by simp) (by simp) (by simp) (show Line.IsError (.loopFound i) from trivial)]
  rintro ⟨-, d, -, h⟩
  rw [mem_direntLines] at h
  obtain ⟨-, h | ⟨-, h⟩ | ⟨-, -, h⟩⟩ := h <;> cases h

end Lines

/-! ## The program -/

/-- How `main` ends: on the loop error, or with the whole of the work list visited. -/
theorem main_cases {lost : Option (List ℕ)} (h : main im fuel = .ok (r, lost)) :
    (r.unreachable = none ∧ lost = none ∧
      WorkList.MetTwice (leads im) (List.range 32) Entry.inum ⟨true, 1⟩) ∨
    (Search.Walked im r.search ∧ r.search.tail = r.search.list.length ∧ Search.Logged im r.search ∧
      (r.unreachable = some ((List.range' 1 (numInodes im - 1)).filter fun i =>
        !r.search.imap i && inUse im i)) ∧ ∃ l, lost = some l) := by
  rw [main, bind_eq_ok] at h
  obtain ⟨r', hr, h⟩ := h
  rw [survey, bind_eq_ok] at hr
  obtain ⟨_, -, hr⟩ := hr
  rw [bind_eq_ok] at hr
  obtain ⟨inodes, -, hr⟩ := hr
  rw [bind_eq_ok] at hr
  obtain ⟨blocks, -, hr⟩ := hr
  rw [bind_eq_ok] at hr
  obtain ⟨s, hstart, hr⟩ := hr
  rw [bind_eq_ok] at hr
  obtain ⟨⟨failed, t⟩, hloop, hr⟩ := hr
  have hwalked := Search.walked_of_start hstart
  rcases Search.logged_of_loop hwalked (Search.logged_of_start hstart) hloop with
    ⟨rfl, htwice⟩ | ⟨rfl, hlogged⟩
  · obtain rfl := Except.ok.inj hr
    obtain ⟨rfl, rfl⟩ := Prod.mk.inj (Except.ok.inj h)
    exact .inl ⟨rfl, rfl, htwice⟩
  · obtain ⟨found, hfound, hr⟩ := bind_eq_ok.1 hr
    obtain rfl := Except.ok.inj hr
    obtain ⟨hwalked', hdone⟩ := Search.walked_of_loop hwalked hloop
    obtain ⟨l, -, h⟩ := bind_eq_ok.1 h
    obtain ⟨rfl, rfl⟩ := Prod.mk.inj (Except.ok.inj h)
    refine .inr ⟨hwalked', hdone, hlogged, congrArg some ?_, l, rfl⟩
    refine eq_filter_of_ok hfound fun i v hv => ?_
    rw [bind_eq_ok] at hv
    obtain ⟨met, hmet, hv⟩ := hv
    rw [Search.met, guard_eq_ok] at hmet
    obtain rfl := Except.ok.inj hmet.2
    split at hv
    · next hm =>
      obtain rfl := Except.ok.inj hv
      rw [hm]
      rfl
    · next hm =>
      obtain rfl := eq_of_diskBit hv
      rw [Bool.of_not_eq_true hm]
      rfl

/-- **The report**: every error is printed exactly when what it says is the case. -/
theorem reports_of_walked {s : Search} (hs : Search.Walked im s) (hdone : s.tail = s.list.length)
    (hlog : Search.Logged im s) : Reports im s := by
  have htrav := hs.traversal
  rw [hdone] at htrav
  have hmem : ∀ e, e ∈ s.list ↔ Reachable im e := fun e => htrav.mem_iff
  have hlines : s.log = (s.list.flatMap (Entry.lines im)).reverse := by
    have hlog' := hlog
    rwa [Search.Logged, hdone, List.take_length] at hlog'
  have hline : ∀ l, l ∈ s.log ↔ ∃ e, Reachable im e ∧ l ∈ e.lines im := by
    intro l
    rw [hlines, List.mem_reverse, List.mem_flatMap]
    exact exists_congr fun e => and_congr_left fun _ => hmem e
  refine ⟨by rw [hlines, List.reverse_reverse], hmem, hs.marks.nodup, fun p => ?_, fun i => ?_, fun j => ?_,
    fun j => ?_, fun i h => ?_⟩
  · rw [hline]
    exact exists_congr fun e => and_congr_right fun _ => blockFree_mem_lines
  · rw [hline]
    exact exists_congr fun e => and_congr_right fun _ => notDirectory_mem_lines
  · rw [hline]
    constructor
    · rintro ⟨e, he, hl⟩
      obtain ⟨hexp, d, hd, hv, hj, hi⟩ := invalidInode_mem_lines.1 hl
      exact ⟨d, ⟨e, he, hexp, hd, hv⟩, hj, hi⟩
    · rintro ⟨d, ⟨e, he, hexp, hd, hv⟩, hj, hi⟩
      exact ⟨e, he, invalidInode_mem_lines.2 ⟨hexp, d, hd, hv, hj, hi⟩⟩
  · rw [hline]
    constructor
    · rintro ⟨e, he, hl⟩
      obtain ⟨hexp, d, hd, hv, hj, hi⟩ := inodeFree_mem_lines.1 hl
      exact ⟨d, ⟨e, he, hexp, hd, hv⟩, hj, hi⟩
    · rintro ⟨d, ⟨e, he, hexp, hd, hv⟩, hj, hi⟩
      exact ⟨e, he, inodeFree_mem_lines.2 ⟨hexp, d, hd, hv, hj, hi⟩⟩
  · obtain ⟨e, -, hl⟩ := (hline _).1 h
    exact loopFound_notMem_lines hl

/-- The checker's report, if it did not end on the loop error. -/
theorem reports_of_main (im : Image) (fuel : ℕ) (r : Survey) (lost : List ℕ)
    (h : main im fuel = .ok (r, some lost)) : Reports im r.search := by
  rcases main_cases h with ⟨-, hnone, -⟩ | ⟨hwalked, hdone, hlogged, -⟩
  · cases hnone
  · exact reports_of_walked hwalked hdone hlogged

theorem reports_treeImage : ∃ r lost, main treeImage 17 = .ok (r, some lost) ∧ Reports treeImage r.search := by
  obtain ⟨r, lost, hmain⟩ := main_treeImage
  exact ⟨r, lost, hmain, reports_of_main _ _ r lost hmain⟩

/-- The blocks that an entry that can be reached names are marked if no error says otherwise. -/
theorem Reports.marked {s : Search} (h : Reports im s) (hlog : ∀ l ∈ s.log, ¬ l.IsError) {e : Entry}
    (he : Reachable im e) {p : UInt32} (hp : p ∈ e.names im) : ReadImg.marked im p.toNat = true := by
  by_contra hfree
  exact hlog _ ((h.blockFree p).2 ⟨e, he, hp, Bool.of_not_eq_true hfree⟩) trivial

theorem silent_iff_consistent {lost : Option (List ℕ)} (h : main im fuel = .ok (r, lost)) :
    Silent r lost ↔ Consistent im := by
  rcases main_cases h with ⟨hnone, rfl, htwice⟩ | ⟨hwalked, hdone, hlogged, hlost, l, rfl⟩
  · exact iff_of_false (fun hs => by simpa using hs.blocks) fun hc => hc.once htwice
  have hrep := reports_of_walked hwalked hdone hlogged
  have htrav := hwalked.traversal
  rw [hdone] at htrav
  have himap : ∀ i, r.search.imap i = true ↔ ∃ e, Reachable im e ∧ e.inum = i := by
    intro i
    rw [hwalked.marks.marked, List.mem_map]
    exact exists_congr fun e => and_congr_left fun _ => hrep.mem_list e
  constructor
  · intro hs
    have hlist := hs.inodes
    rw [hlost, Option.some.injEq, List.filter_eq_nil_iff] at hlist
    refine ⟨htrav.not_metTwice List.nodup_range, fun e he hdir => ?_, fun e he p => hrep.marked hs.log he,
      fun d hd => ?_, fun i hi hlt huse => ?_⟩
    · by_contra hmode
      exact hs.log _ ((hrep.notDirectory e.inum).2 ⟨e, he, hdir, rfl, Bool.of_not_eq_true hmode⟩) trivial
    · have hin : d.inode.toNat < numInodes im := by
        by_contra hge
        exact hs.log _ ((hrep.invalidInode _).2 ⟨d, hd, rfl, not_lt.1 hge⟩) trivial
      refine ⟨hin, ?_⟩
      by_contra hfree
      exact hs.log _ ((hrep.inodeFree _).2 ⟨d, hd, rfl, hin, Bool.of_not_eq_true hfree⟩) trivial
    · have hno := hlist i (List.mem_range'_1.2 ⟨hi, by omega⟩)
      rw [huse, Bool.and_true, Bool.not_eq_true', Bool.not_eq_false] at hno
      exact (himap i).1 hno
  · intro hc
    refine ⟨?_, ?_, fun line hline herr => ?_⟩
    · rw [hlost, Option.some.injEq, List.filter_eq_nil_iff]
      intro i hi hno
      rw [List.mem_range'_1] at hi
      rw [Bool.and_eq_true, Bool.not_eq_true'] at hno
      have hmet := (himap i).2 (hc.reached i hi.1 (by omega) hno.2)
      exact Bool.false_ne_true (hno.1.symm.trans hmet)
    · rw [Option.some.injEq]
      refine List.eq_nil_iff_forall_not_mem.2 fun b hb => ?_
      obtain ⟨-, ⟨e, he, hmem⟩, hfree⟩ := (mem_lost_iff h b).1 hb
      obtain ⟨p, hp, rfl⟩ := List.mem_map.1 hmem
      exact Bool.false_ne_true (hfree.symm.trans (hc.marked e he p hp))
    · cases line with
      | blockFree p =>
        obtain ⟨e, he, hp, hfree⟩ := (hrep.blockFree p).1 hline
        exact Bool.false_ne_true (hfree.symm.trans (hc.marked e he p hp))
      | notDirectory i =>
        obtain ⟨e, he, hdir, rfl, hmode⟩ := (hrep.notDirectory i).1 hline
        exact Bool.false_ne_true (hmode.symm.trans (hc.isDir e he hdir))
      | invalidInode j =>
        obtain ⟨d, hd, rfl, hge⟩ := (hrep.invalidInode j).1 hline
        exact absurd (hc.inUse d hd).1 (not_lt.2 hge)
      | inodeFree j =>
        obtain ⟨d, hd, rfl, -, hfree⟩ := (hrep.inodeFree j).1 hline
        exact Bool.false_ne_true (hfree.symm.trans (hc.inUse d hd).2)
      | loopFound i => exact hrep.loopFound i hline
      | file | block | directory | entry => exact herr.elim

/-- **The verdict.**  On every image on which the checker comes to its end, it ends on the loop
error exactly when an inode is met twice, and it is silent exactly when the image is consistent. -/
theorem verdict_iff (im : Image) (fuel : ℕ) (r : Survey) (lost : Option (List ℕ))
    (h : main im fuel = .ok (r, lost)) :
    (r.unreachable = none ↔ WorkList.MetTwice (leads im) (List.range 32) Entry.inum ⟨true, 1⟩) ∧
      (Silent r lost ↔ Consistent im) := by
  refine ⟨?_, silent_iff_consistent h⟩
  rcases main_cases h with ⟨hnone, -, htwice⟩ | ⟨hwalked, hdone, -, hlost, -⟩
  · exact iff_of_true hnone htwice
  · have htrav := hwalked.traversal
    rw [hdone] at htrav
    exact iff_of_false (by simp [hlost]) (htrav.not_metTwice List.nodup_range)

theorem verdict_treeImage : ∃ r lost, main treeImage 17 = .ok (r, some lost) ∧
    (r.unreachable = none ↔
      WorkList.MetTwice (leads treeImage) (List.range 32) Entry.inum ⟨true, 1⟩) ∧
    (Silent r (some lost) ↔ Consistent treeImage) := by
  obtain ⟨r, lost, hmain⟩ := main_treeImage
  exact ⟨r, lost, hmain, verdict_iff _ _ r (some lost) hmain⟩

end ReadImg

end Fsx600
