import Fsx600.Properties.CurrentDir
import Fsx600.Properties.Showing

/-!
# What `ls` prints

`ls` collects a row for every entry in `lsbuf`, sorts the rows with `strcmp`, and prints them one
after another.  There are 32 rows of 64 bytes, and a directory has at most 32 entries with names of
at most 25 bytes, so nothing runs over; and the rows are all different, so whatever `qsort` does
there is one way to print them (`printLs_eq`).

After any run of calls within the limits and any changes of directory, `ls` prints the names that
the store has below the current directory (`ls_of_cds`).
-/

namespace Fsx600

open Checked Function Mkfs

/-! ## Rows -/

variable {rows sorted : List (List UInt8)}

theorem mapM_copyTo_eq_ok {rows' : List (List UInt8)} :
    rows.mapM (copyTo 64) = .ok rows' ↔ rows' = rows ∧ ∀ row ∈ rows, row.length < 64 := by
  induction rows generalizing rows' with
  | nil =>
    rw [List.mapM_nil, pure_eq_ok]
    simp [eq_comm]
  | cons row rest ih =>
    simp only [List.mapM_cons, bind_eq_ok, copyTo, guard_eq_ok, ih, pure_eq_ok, List.forall_mem_cons]
    constructor
    · rintro ⟨_, ⟨hrow, hcopy⟩, _, ⟨rfl, hrest⟩, rfl⟩
      exact ⟨by rw [Except.ok.inj hcopy], hrow, hrest⟩
    · rintro ⟨rfl, hrow, hrest⟩
      exact ⟨row, ⟨hrow, rfl⟩, rest, ⟨rfl, hrest⟩, rfl⟩

/-- The rows are those that they were filled with, if they fit. -/
theorem fillRows_eq_ok {rows' : List (List UInt8)} :
    fillRows rows = .ok rows' ↔ rows.length ≤ 32 ∧ rows' = rows ∧ ∀ row ∈ rows, row.length < 64 := by
  rw [fillRows, guard_eq_ok, mapM_copyTo_eq_ok]

/-- **Sorting is unambiguous.**  Any order of the rows that ascends is the one that is printed. -/
theorem printLs_eq (hperm : sorted.Perm rows) (h : sorted.Pairwise (· ≤ ·)) : printLs rows = sorted.flatten := by
  have hrows : (rows.insertionSort (· ≤ ·)).Pairwise (· ≤ ·) := List.pairwise_insertionSort _ rows
  have hsame : rows.insertionSort (· ≤ ·) = sorted :=
    ((List.perm_insertionSort _ rows).trans hperm.symm).eq_of_pairwise (fun _ _ _ _ => List.le_antisymm) hrows h
  rw [printLs, hsame]

/-- Rows that are all different can be put in ascending order. -/
theorem exists_ascending (h : rows.Nodup) :
    ∃ sorted : List (List UInt8), sorted.Perm rows ∧ sorted.Pairwise (· ≤ ·) ∧ sorted.Pairwise (· < ·) := by
  have hperm := List.perm_insertionSort (· ≤ ·) rows
  have hle : (rows.insertionSort (· ≤ ·)).Pairwise (· ≤ ·) := List.pairwise_insertionSort _ rows
  refine ⟨_, hperm, hle, hle.imp₂ (fun x y hxy hne => ?_) (hperm.nodup_iff.2 h)⟩
  exact (List.le_iff_lt_or_eq.1 hxy).resolve_right hne

namespace FS

variable {g : Layout} {s : FS g} {path : Path} {N : NameTree} {M : Store} {o : Object}

/-- The entries of a directory fit in `lsbuf`. -/
theorem Backs.listing (h : Backs s N M) (hlen : path.tokens.length ≤ 63) (ho : M path.tokens = some o)
    (hdir : o.isDir = true) : ∃ filled, s.fsReaddir path = .ok (0, filled) ∧ filled.length ≤ 32 ∧
      (filled.map Prod.fst).Nodup ∧ (∀ t, t ∈ filled.map Prod.fst ↔ t ∈ M.children path.tokens) ∧
      ∀ t st, (t, st) ∈ filled → ∃ o', M (path.tokens ++ [t]) = some o' ∧ o'.Shown st := by
  obtain ⟨filled, hread, hnodup, hmem, hattr⟩ := h.entries hlen ho hdir
  obtain ⟨d, hr, rfl⟩ := h.exists_resolve ho
  have hslots := h.fsReaddir_eq hlen hr hdir
  rw [hread] at hslots
  obtain ⟨-, rfl⟩ := Prod.mk.inj (Except.ok.inj hslots)
  refine ⟨_, hread, ?_, hnodup, hmem, hattr⟩
  rw [List.length_map]
  exact (List.length_filter_le _ _).trans_eq List.length_range

/-- The names in a store that is backed are short. -/
theorem Backs.fits_of_mem_children (h : Backs s N M) {q : List Name} {t : Name} (ht : t ∈ M.children q) :
    Name.Fits t := by
  obtain ⟨x, hx⟩ := h.isSome_iff.1 ht
  obtain ⟨d, -, j, -, hfits, -⟩ := LabelledTree.path_snoc_iff.1 hx
  exact hfits

end FS

/-- The path that is listed. -/
theorem Shell.tokens_of_cds {dirs : List Path} {sh sh' : Shell} (hcds : Shell.start.cds dirs = .ok sh)
    (hpwd : sh'.getCwd = sh.getCwd) : (cString sh'.getCwd).tokens = (Cwd.root.cdAll dirs).names ∧
      (cString sh'.getCwd).tokens.length ≤ 63 := by
  have hat := (Shell.at_start.cds dirs).2 sh hcds
  have htokens : (cString sh'.getCwd).tokens = (Cwd.root.cdAll dirs).names := by
    rw [hpwd]
    exact hat.tokens_getCwd (bytes_cString hat.nul_notMem_getCwd)
  refine ⟨htokens, ?_⟩
  have := hat.fits.1
  rw [htokens]
  omega

namespace Session

variable {g : Layout} {s : Session g} {path : Path} {N : NameTree} {M : Store} {o : Object}

/-- **`ls` of a directory** prints a row for every name in it, in ascending order. -/
theorem listDir_eq (h : FS.Backs s.fs N M) (hlen : path.tokens.length ≤ 63) (ho : M path.tokens = some o)
    (hdir : o.isDir = true) : ∃ rows : List (List UInt8), rows.Pairwise (· < ·) ∧
      (∀ row, row ∈ rows ↔ ∃ t ∈ M.children path.tokens, row = t ++ [10]) ∧
      s.listDir fillerLine path = .ok ⟨rows.flatten, 0, s⟩ := by
  obtain ⟨filled, hread, hcount, hnodup, hmem, -⟩ := h.listing hlen ho hdir
  have hrows : filled.map (fun x => fillerLine x.1 x.2) = (filled.map Prod.fst).map (· ++ [10]) := by
    rw [List.map_map]
    rfl
  have hfits : fillRows ((filled.map Prod.fst).map (· ++ [10])) = .ok ((filled.map Prod.fst).map (· ++ [10])) := by
    refine fillRows_eq_ok.2 ⟨by simpa using hcount, rfl, fun row hrow => ?_⟩
    obtain ⟨t, ht, rfl⟩ := List.mem_map.1 hrow
    have hshort := (h.fits_of_mem_children ((hmem t).1 ht)).length_le
    rw [List.length_append, List.length_singleton]
    omega
  obtain ⟨sorted, hperm, hle, hlt⟩ := exists_ascending (hnodup.map (List.append_left_injective [10]))
  refine ⟨sorted, hlt, fun row => ?_, ?_⟩
  · rw [hperm.mem_iff, List.mem_map]
    constructor
    · rintro ⟨t, ht, rfl⟩
      exact ⟨t, (hmem t).1 ht, rfl⟩
    · rintro ⟨t, ht, rfl⟩
      exact ⟨t, (hmem t).2 ht, rfl⟩
  · rw [listDir, hread]
    dsimp only [fsOp]
    rw [ok_bind]
    dsimp only
    rw [hrows, hfits, ok_bind, printLs_eq hperm hle]
    rfl

/-- `ls` of what is no directory prints nothing. -/
theorem listDir_of_error {e : ℤ} (hread : s.fs.fsReaddir path = .ok (e, [])) :
    s.listDir fillerLine path = .ok ⟨[], e, s⟩ := by
  rw [listDir, hread]
  rfl

theorem length_dashlLine (sys : System) (hctime : ∀ now, (sys.ctime now).length = 25) (name : Name) (st : FS.Stat) :
    (dashlLine sys name st).length = name.length + (decimal st.size).length + (decimal st.blocks).length + 39 := by
  have hmode : (strmode st.mode).length = 10 := by simp [strmode]
  simp only [dashlLine, List.length_append, List.length_cons, hctime, hmode]
  omega

/-- **`ls-l` of a directory** returns if the rows fit. -/
theorem lsdashl_eq (h : FS.Backs s.fs N M) (hlen : path.tokens.length ≤ 63) (ho : M path.tokens = some o)
    (hdir : o.isDir = true) (sys : System) (hctime : ∀ now, (sys.ctime now).length = 25) :
    ∃ filled, s.fs.fsReaddir path = .ok (0, filled) ∧
      (∀ t, t ∈ filled.map Prod.fst ↔ t ∈ M.children path.tokens) ∧
      (∀ t st, (t, st) ∈ filled → ∃ o', M (path.tokens ++ [t]) = some o' ∧ o'.Shown st) ∧
      (Returns (s.lsdashl sys path) ↔
        ∀ x ∈ filled, x.1.length + (decimal x.2.size).length + (decimal x.2.blocks).length ≤ 24) ∧
      ∀ a, s.lsdashl sys path = .ok a → a = ⟨printLs (filled.map fun x => dashlLine sys x.1 x.2), 0, s⟩ := by
  obtain ⟨filled, hread, hcount, -, hmem, hattr⟩ := h.listing hlen ho hdir
  obtain ⟨st, hget, hmode, -⟩ := h.shows.attributes path o hlen ho
  have hisDir : sIsDir st.mode = true := by
    rw [hmode]
    exact hdir
  have hlist : s.lsdashl sys path = s.listDir (dashlLine sys) path := by
    rw [lsdashl, hget]
    dsimp only [fsOp]
    rw [ok_bind]
    exact if_pos hisDir
  have hfits : (∀ x ∈ filled, x.1.length + (decimal x.2.size).length + (decimal x.2.blocks).length ≤ 24) ↔
      ∀ row ∈ filled.map (fun x => dashlLine sys x.1 x.2), row.length < 64 := by
    simp only [List.forall_mem_map, length_dashlLine sys hctime]
    refine forall₂_congr fun x _ => ?_
    omega
  have hrows : (filled.map fun x => dashlLine sys x.1 x.2).length ≤ 32 := by
    rwa [List.length_map]
  refine ⟨filled, hread, hmem, hattr, ?_⟩
  rw [hlist, hfits, listDir, hread]
  dsimp only [fsOp]
  rw [ok_bind]
  dsimp only
  refine ⟨⟨?_, fun hall => ?_⟩, fun a ha => ?_⟩
  · rintro ⟨a, ha⟩
    obtain ⟨r, hr, -⟩ := bind_eq_ok.1 ha
    exact (fillRows_eq_ok.1 hr).2.2
  · rw [fillRows_eq_ok.2 ⟨hrows, rfl, hall⟩]
    exact ⟨_, rfl⟩
  · obtain ⟨r, hr, ha⟩ := bind_eq_ok.1 ha
    obtain ⟨-, rfl, -⟩ := fillRows_eq_ok.1 hr
    exact (Except.ok.inj ha).symm

/-- **What `ls` prints.**  After any run of calls within the limits on a new image, in a shell whose
current directory is the one that some changes of directory lead to, `ls` returns.  If there is a
directory there, it prints the name of every object in it once, each with a newline, in the order
of `strcmp`; otherwise it prints nothing and returns the error. -/
theorem ls_of_cds {n : ℕ} (h : Formattable n) (hino : 64 ≤ (layout h).numInodes) (t : UInt32)
    {calls : List (Context × Call)} (hfit : (fresh h t).AllAdmitted calls) {codes : List ℤ}
    {s : Session (layout h)} (hrun : (fresh h t).runCalls calls = .ok (codes, s.fs)) {dirs : List Path} {sh : Shell}
    (hcds : Shell.start.cds dirs = .ok sh) (hpwd : s.shell.getCwd = sh.getCwd) (sys : System) (m : Moment)
    {M : Store} (hM : M = (Store.root.execAll (calls.map Prod.snd)).2) {q : List Name}
    (hq : q = (Cwd.root.cdAll dirs).names) :
    (M q = none → s.call sys m .ls0 [] = .ok ⟨[], M.error q, s⟩) ∧
      (∀ o, M q = some o → o.isDir = false → s.call sys m .ls0 [] = .ok ⟨[], -ENOTDIR, s⟩) ∧
      ∀ o, M q = some o → o.isDir = true → ∃ rows : List (List UInt8), rows.Pairwise (· < ·) ∧
        (∀ row, row ∈ rows ↔ ∃ t ∈ M.children q, row = t ++ [10]) ∧
        s.call sys m .ls0 [] = .ok ⟨rows.flatten, 0, s⟩ := by
  subst hM hq
  obtain ⟨s', hs', N, hback⟩ := (FS.backs_fresh h t hino).run hfit
  obtain ⟨-, rfl⟩ := Prod.mk.inj (Except.ok.inj (hrun.symm.trans hs'))
  obtain ⟨htokens, hlen⟩ := Shell.tokens_of_cds hcds hpwd
  rw [← htokens]
  refine ⟨fun hnone => ?_, fun o ho hfile => ?_, fun o ho hdir => listDir_eq hback hlen ho hdir⟩
  · exact listDir_of_error (hback.shows.missing _ hlen hnone).2.1
  · exact listDir_of_error (hback.shows.notDir _ o hlen ho hfile)

/-- A directory `/a`, and two files in it. -/
def lsCalls : List (Context × Call) :=
  [(⟨1000, 1000, 0⟩, .mkdir pathA 0x1ED), (⟨1000, 1000, 1⟩, .mknod FS.pathAC 0x81A4),
    (⟨1000, 1000, 2⟩, .mknod pathAB 0x81A4)]

theorem exists_lsCalls : ∃ (s : FS (layout formattable_256)) (sh : Shell) (o : Object),
    (fresh formattable_256 0).AllAdmitted lsCalls ∧
      (fresh formattable_256 0).runCalls lsCalls = .ok ([0, 0, 0], s) ∧
      Shell.start.cds [⟨ascii "a", by decide⟩] = .ok sh ∧
      (Store.root.execAll (lsCalls.map Prod.snd)).2 pathA.tokens = some o ∧ o.isDir = true := by
  have hfit : (fresh formattable_256 0).AllAdmitted lsCalls := by
    decide +kernel
  obtain ⟨sh, hsh⟩ := (Shell.at_start.cds [⟨ascii "a", by decide⟩]).1.2 (by decide)
  obtain ⟨s, hs, N, hback⟩ := (FS.backs_fresh formattable_256 0 (by decide)).run hfit
  have hrun : ((fresh formattable_256 0).runCalls lsCalls).map (fun x => (x.1, x.2.resolve 1 pathA.tokens, x.2.isDir 2)) =
      .ok ([0, 0, 0], .inr 2, true) := by
    decide +kernel
  obtain ⟨codes, hcodes⟩ : ∃ codes, (Store.root.execAll (lsCalls.map Prod.snd)).1 = codes := ⟨_, rfl⟩
  rw [hcodes] at hs
  rw [hs] at hrun
  obtain ⟨rfl, hrest⟩ := Prod.mk.inj (Except.ok.inj hrun)
  obtain ⟨hresolve, hdir⟩ := Prod.mk.inj hrest
  exact ⟨s, sh, s.object 2, hfit, hs, hsh, hback.of_resolve hresolve, hdir⟩

/-- After `cd a`, `ls` prints `b` before `c`. -/
theorem ls_of_lsCalls : ∃ (s : Session (layout formattable_256)) (rows : List (List UInt8)),
    (fresh formattable_256 0).runCalls lsCalls = .ok ([0, 0, 0], s.fs) ∧
      Shell.start.cds [⟨ascii "a", by decide⟩] = .ok s.shell ∧ rows.Pairwise (· < ·) ∧
      rows.flatten = ascii "b\nc\n" ∧
      s.call ⟨fun _ => [], fun _ => [], true, fun _ => true⟩ ⟨⟨1000, 1000, 3⟩, fun _ => ⟨1000, 1000, 3⟩⟩ .ls0 [] =
        .ok ⟨rows.flatten, 0, s⟩ := by
  let sys : System := ⟨fun _ => [], fun _ => [], true, fun _ => true⟩
  let m : Moment := ⟨⟨1000, 1000, 3⟩, fun _ => ⟨1000, 1000, 3⟩⟩
  obtain ⟨s, sh, o, hfit, hs, hsh, ho, hdir⟩ := exists_lsCalls
  have hprints : (do
      let x ← fsOp ((fresh formattable_256 0).runCalls lsCalls)
      let sh ← Shell.start.cds [⟨ascii "a", by decide⟩]
      let a ← Session.call ⟨x.2, sh, fun _ => none⟩ sys m .ls0 []
      .ok a.out) = Except.ok (ascii "b\nc\n") := by
    decide +kernel
  obtain ⟨rows, hasc, -, hcall⟩ := (ls_of_cds formattable_256 (by decide) 0 (s := ⟨s, sh, fun _ => none⟩) hfit hs hsh
    rfl sys m rfl rfl).2.2 o ho hdir
  rw [hs, hsh] at hprints
  dsimp only [fsOp] at hprints
  rw [ok_bind, ok_bind] at hprints
  dsimp only at hprints
  rw [hcall, ok_bind] at hprints
  exact ⟨⟨s, sh, fun _ => none⟩, rows, hs, hsh, hasc, Except.ok.inj hprints, hcall⟩

/-- **When `ls-l` stays within its rows.**  In the same setting, in a directory, and with a `ctime` of 25
bytes: `ls-l` returns if and only if for every entry the name and the digits of the size and of the
number of blocks take no more than 24 bytes together.  The entries are the names that the store has
there, each with its mode, and a file with its length; and their rows are printed in order. -/
theorem lsdashl_of_cds {n : ℕ} (h : Formattable n) (hino : 64 ≤ (layout h).numInodes) (t : UInt32)
    {calls : List (Context × Call)} (hfit : (fresh h t).AllAdmitted calls) {codes : List ℤ}
    {s : Session (layout h)} (hrun : (fresh h t).runCalls calls = .ok (codes, s.fs)) {dirs : List Path} {sh : Shell}
    (hcds : Shell.start.cds dirs = .ok sh) (hpwd : s.shell.getCwd = sh.getCwd) (sys : System)
    (hctime : ∀ now, (sys.ctime now).length = 25) (m : Moment)
    {M : Store} (hM : M = (Store.root.execAll (calls.map Prod.snd)).2) {q : List Name}
    (hq : q = (Cwd.root.cdAll dirs).names) {o : Object} (ho : M q = some o) (hdir : o.isDir = true) :
    ∃ filled, s.fs.fsReaddir (cString s.shell.getCwd) = .ok (0, filled) ∧
      (∀ t, t ∈ filled.map Prod.fst ↔ t ∈ M.children q) ∧
      (∀ t st, (t, st) ∈ filled → ∃ o', M (q ++ [t]) = some o' ∧ o'.Shown st) ∧
      (Returns (s.call sys m .lsdashl0 []) ↔
        ∀ x ∈ filled, x.1.length + (decimal x.2.size).length + (decimal x.2.blocks).length ≤ 24) ∧
      ∀ a, s.call sys m .lsdashl0 [] = .ok a →
        a = ⟨printLs (filled.map fun x => dashlLine sys x.1 x.2), 0, s⟩ := by
  subst hM hq
  obtain ⟨s', hs', N, hback⟩ := (FS.backs_fresh h t hino).run hfit
  obtain ⟨-, rfl⟩ := Prod.mk.inj (Except.ok.inj (hrun.symm.trans hs'))
  obtain ⟨htokens, hlen⟩ := Shell.tokens_of_cds hcds hpwd
  rw [← htokens] at ho ⊢
  exact lsdashl_eq hback hlen ho hdir sys hctime

/-- The first ten seconds. -/
def sampleClock : System where
  strerror := fun _ => []
  ctime := fun now => ascii "Thu Jan  1 00:00:0" ++ UInt8.ofNat (48 + now.toNat % 10) :: ascii " 1970\n"
  isatty := true
  creatable := fun _ => true

/-- There `ls-l` returns. -/
theorem lsdashl_of_lsCalls : ∃ (s : Session (layout formattable_256)) (a : Answer (layout formattable_256)),
    (fresh formattable_256 0).runCalls lsCalls = .ok ([0, 0, 0], s.fs) ∧
      Shell.start.cds [⟨ascii "a", by decide⟩] = .ok s.shell ∧
      s.call sampleClock ⟨⟨1000, 1000, 3⟩, fun _ => ⟨1000, 1000, 3⟩⟩ .lsdashl0 [] = .ok a ∧ a.ret = 0 := by
  let m : Moment := ⟨⟨1000, 1000, 3⟩, fun _ => ⟨1000, 1000, 3⟩⟩
  obtain ⟨s, sh, o, hfit, hs, hsh, ho, hdir⟩ := exists_lsCalls
  have hsmall : (do
      let x ← fsOp ((fresh formattable_256 0).runCalls lsCalls)
      let sh ← Shell.start.cds [⟨ascii "a", by decide⟩]
      let y ← fsOp (x.2.fsReaddir (cString sh.getCwd))
      .ok (y.2.all fun x => x.1.length + (decimal x.2.size).length + (decimal x.2.blocks).length ≤ 24)) =
      Except.ok true := by
    decide +kernel
  obtain ⟨filled, hread, -, -, hreturns, heq⟩ := lsdashl_of_cds formattable_256 (by decide) 0
    (s := ⟨s, sh, fun _ => none⟩) hfit hs hsh rfl sampleClock (fun _ => rfl) m rfl rfl ho hdir
  rw [hs, hsh] at hsmall
  dsimp only [fsOp] at hsmall
  rw [ok_bind, ok_bind] at hsmall
  dsimp only at hsmall
  rw [show s.fsReaddir (cString sh.getCwd) = .ok (0, filled) from hread, ok_bind] at hsmall
  have hall : ∀ x ∈ filled, x.1.length + (decimal x.2.size).length + (decimal x.2.blocks).length ≤ 24 := by
    simpa using Except.ok.inj hsmall
  obtain ⟨a, ha⟩ := hreturns.2 hall
  exact ⟨⟨s, sh, fun _ => none⟩, a, hs, hsh, ha, by rw [heq a ha]⟩

end Session

end Fsx600
