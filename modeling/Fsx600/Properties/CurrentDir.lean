import Fsx600.Model.Shell
import Fsx600.Spec.Lookup
import Mathlib.Data.List.TakeWhile

/-!
# The current directory of the command line

The shell keeps its current directory as a stack of names and as a string; commands put a path
together from the string and their argument, clean it up with `fix_path`, and hand it to an
operation, which cuts it into names again.  A `Cwd` is the stack alone, and a change of directory
is a function on it (`Cwd.cd`).

Whatever changes of directory were made, the string is that of the stack, and the names that an
operation gets are those of the stack and of the argument, with one exception: a name that ends in
two dots, and is not the last, loses them and runs into the next one (`Cwd.below`).  So `..` inside
a path does not lead up, and `a../b` is `ab`.
-/

namespace Fsx600

open Function Words

/-! ## What `fix_path` leaves -/

/-- The pieces of a path after `fix_path`, when `carry` is what is left of the pieces before: a
piece that ends in two dots and is not the last one loses the dots, and runs into the next. -/
def runOn (carry : Name) : List Name → List Name
  | [] => [carry]
  | [c] => [carry ++ c]
  | c :: d :: rest =>
    if [46, 46] <:+ c then runOn (carry ++ c.take (c.length - 2)) (d :: rest)
    else (carry ++ c) :: runOn [] (d :: rest)

variable {carry c p : Name} {b : UInt8} {rest pieces : List Name}

/-- A byte at the front of a piece that is not the first of its two dots. -/
theorem runOn_cons (hb : ¬ (b :: c = [46, 46] ∧ rest ≠ [])) :
    runOn carry ((b :: c) :: rest) = runOn (carry ++ [b]) (c :: rest) := by
  cases rest with
  | nil => simp [runOn]
  | cons d rest =>
    have hne : b :: c ≠ [46, 46] := by simpa using hb
    have hiff : [46, 46] <:+ b :: c ↔ [46, 46] <:+ c := by
      rw [List.suffix_cons_iff, or_iff_right (Ne.symm hne)]
    rw [runOn, runOn]
    by_cases hdots : [46, 46] <:+ c
    · have htwo : 2 ≤ c.length := hdots.length_le
      have htake : (b :: c).take ((b :: c).length - 2) = b :: c.take (c.length - 2) := by
        rw [List.length_cons, show c.length + 1 - 2 = c.length - 2 + 1 by omega, List.take_succ_cons]
      rw [if_pos (hiff.2 hdots), if_pos hdots, htake, List.append_assoc]
      rfl
    · rw [if_neg (mt hiff.1 hdots), if_neg hdots, List.append_assoc]
      rfl

/-- A slash ends a piece. -/
theorem runOn_nil_cons (h : pieces ≠ []) : runOn carry ([] :: pieces) = carry :: runOn [] pieces := by
  obtain ⟨d, rest, rfl⟩ := List.exists_cons_of_ne_nil h
  rw [runOn, if_neg (by simp), List.append_nil]

/-- Two dots and a slash are nothing. -/
theorem runOn_dots_cons (h : pieces ≠ []) : runOn carry ([46, 46] :: pieces) = runOn carry pieces := by
  obtain ⟨d, rest, rfl⟩ := List.exists_cons_of_ne_nil h
  rw [runOn, if_pos (List.suffix_refl _)]
  simp

theorem splitOnP_slash (q : Name) : (47 :: q).splitOnP isSlash = [] :: q.splitOnP isSlash := by
  rw [List.splitOnP_cons_eq_if_modifyHead]
  exact if_pos (by rfl)

/-- The words of a path after `fix_path`. -/
theorem words_fixPath (hcarry : Letters isSlash carry) :
    words isSlash (carry ++ fixPath p) = (runOn carry (p.splitOnP isSlash)).filter fun w => !w.isEmpty := by
  induction p using fixPath.induct generalizing carry with
  | case1 =>
    rw [fixPath, List.append_nil, words_of_letters hcarry, List.splitOnP_nil, runOn, List.append_nil]
    rfl
  | case2 rest ih =>
    have hpieces : (46 :: 46 :: 47 :: rest).splitOnP isSlash = [46, 46] :: rest.splitOnP isSlash := by
      simp [List.splitOnP_cons_eq_if_modifyHead, isSlash]
    rw [fixPath, ih hcarry, hpieces, runOn_dots_cons (List.splitOnP_ne_nil _ _)]
  | case3 b rest hnot hs ih =>
    obtain ⟨rfl, hhead⟩ := hs
    obtain ⟨q, rfl⟩ : ∃ q, rest = 47 :: q := by
      cases rest with
      | nil => exact absurd hhead (by simp)
      | cons a q => exact ⟨q, by simpa using hhead⟩
    have hne := List.splitOnP_ne_nil isSlash q
    rw [fixPath.eq_3 _ _ hnot, if_pos ⟨rfl, hhead⟩, ih hcarry, splitOnP_slash (47 :: q), splitOnP_slash q,
      runOn_nil_cons (List.cons_ne_nil _ _), runOn_nil_cons hne, runOn_nil_cons hne, List.filter_cons,
      List.filter_cons, List.filter_cons]
    rfl
  | case4 b rest hnot hs ih =>
    rw [fixPath.eq_3 _ _ hnot, if_neg hs]
    by_cases hb : b = 47
    · subst hb
      have hletters : Letters isSlash ([] : Name) := by simp [Letters]
      rw [words_append_cons (by rfl), words_of_letters hcarry, ← List.nil_append (fixPath rest), ih hletters,
        splitOnP_slash, runOn_nil_cons (List.splitOnP_ne_nil _ _),
        List.filter_cons, single, List.filter_cons]
      split <;> rfl
    · have hletters : Letters isSlash (carry ++ [b]) := by
        intro a ha
        rcases List.mem_append.1 ha with ha | ha
        · exact hcarry a ha
        · rw [List.mem_singleton.1 ha]
          simpa [isSlash] using hb
      obtain ⟨c, cs, hc⟩ := List.exists_cons_of_ne_nil (List.splitOnP_ne_nil isSlash rest)
      have hlast : ¬ (b :: c = [46, 46] ∧ cs ≠ []) := by
        rintro ⟨hdots, hcs⟩
        obtain ⟨rfl, rfl⟩ := List.cons.inj hdots
        obtain ⟨v, vs, rfl⟩ := List.exists_cons_of_ne_nil hcs
        obtain ⟨d, q, rfl, hd⟩ := exists_of_splitOnP_eq hc
        obtain rfl : d = 47 := by simpa [isSlash] using hd
        exact hnot q rfl rfl
      rw [← List.singleton_append, ← List.append_assoc, ih hletters, List.splitOnP_cons_eq_if_modifyHead,
        if_neg (by simpa [isSlash] using hb), hc, List.modifyHead_cons, runOn_cons hlast]

theorem tokens_eq_words (p : Path) : p.tokens = words isSlash p.bytes := rfl

theorem letters_of_isComponent {n : Name} (h : Name.IsComponent n) : Letters isSlash n := by
  intro b hb
  have hne : b ≠ 47 := by
    rintro rfl
    exact h.slash hb
  simpa [isSlash] using hne

theorem mem_of_mem_fixPath (h : b ∈ fixPath p) : b ∈ p := by
  induction p using fixPath.induct with
  | case1 => exact h
  | case2 rest ih => simp [ih h]
  | case3 a rest hnot hs ih =>
    rw [fixPath.eq_3 _ _ hnot, if_pos hs] at h
    exact List.mem_cons_of_mem a (ih h)
  | case4 a rest hnot hs ih =>
    rw [fixPath.eq_3 _ _ hnot, if_neg hs] at h
    rcases List.mem_cons.1 h with rfl | h
    · exact List.mem_cons_self
    · exact List.mem_cons_of_mem a (ih h)

theorem length_fixPath_le (p : List UInt8) : (fixPath p).length ≤ p.length := by
  induction p using fixPath.induct with
  | case1 => simp [fixPath]
  | case2 rest ih =>
    simp only [fixPath, List.length_cons]
    omega
  | case3 b rest hnot hs ih =>
    rw [fixPath.eq_3 _ _ hnot, if_pos hs, List.length_cons]
    omega
  | case4 b rest hnot hs ih =>
    rw [fixPath.eq_3 _ _ hnot, if_neg hs, List.length_cons, List.length_cons]
    omega

/-- A path from the root stays one. -/
theorem exists_fixPath_slash (q : List UInt8) : ∃ r, fixPath (47 :: q) = 47 :: r := by
  induction q with
  | nil => exact ⟨[], rfl⟩
  | cons a q ih =>
    have hnot : ∀ rest : List UInt8, (47 : UInt8) = 46 → a :: q = 46 :: 47 :: rest → False := by simp
    rw [fixPath.eq_3 _ _ hnot]
    split
    · next hs =>
      obtain rfl : a = 47 := by simpa using hs.2
      exact ih
    · exact ⟨_, rfl⟩

theorem bytes_cString {l : List UInt8} (h : 0 ∉ l) : (cString l).bytes = l := by
  refine List.takeWhile_eq_self_iff.2 fun b hb => ?_
  have hne : b ≠ 0 := by
    rintro rfl
    exact h hb
  simpa using hne

/-! ## The stack of names -/

/-- The names from the root down to the current directory. -/
structure Cwd where
  names : List Name
  component : ∀ n ∈ names, Name.IsComponent n

namespace Cwd

variable (d : Cwd)

/-- The root. -/
def root : Cwd := ⟨[], by simp⟩

/-- As a string; the root is the empty one. -/
def bytes : List UInt8 := d.names.flatMap (47 :: ·)

theorem nul_notMem_bytes : 0 ∉ d.bytes := by
  intro h0
  obtain ⟨n, hn, h0⟩ := List.mem_flatMap.1 h0
  rcases List.mem_cons.1 h0 with h0 | h0
  · exact absurd h0 (by decide)
  · exact (d.component n hn).nul h0

/-- Where a change of directory starts. -/
def base (dir : Path) : List Name := if dir.bytes.head? = some 47 then [] else d.names

/-- A change of directory.  Ten names at most are taken from the argument. -/
def cd (dir : Path) : Cwd :=
  if dir.bytes = ascii ".." then ⟨d.names.dropLast, fun n hn => d.component n (List.mem_of_mem_dropLast hn)⟩
  else
    { names := d.base dir ++ dir.tokens.take 10
      component := fun n hn => by
        rcases List.mem_append.1 hn with hn | hn
        · rw [base] at hn
          split at hn
          · simp at hn
          · exact d.component n hn
        · exact dir.isComponent_of_mem_tokens (List.mem_of_mem_take hn) }

/-- Changes of directory one after another. -/
def cdAll : Cwd → List Path → Cwd
  | d, [] => d
  | d, dir :: rest => (d.cd dir).cdAll rest

/-- The names fit in `paths`, and the string in `cwd`. -/
def Fits : Prop := d.names.length ≤ 16 ∧ (∀ n ∈ d.names, n.length < 44) ∧ d.bytes.length < 128

instance : Decidable d.Fits := inferInstanceAs (Decidable (_ ∧ _ ∧ _))

/-- The names that an operation gets for an argument. -/
def below (arg : Path) : List Name :=
  (runOn [] (d.names ++ arg.bytes.splitOnP isSlash)).filter fun w => !w.isEmpty

end Cwd

/-! ## The shell keeps the stack -/

namespace Shell

variable {sh sh' : Shell} {d : Cwd} {names more : List Name} {dir arg : Path}

/-- The first `depth` rows of `paths` are the names. -/
structure Holds (sh : Shell) (names : List Name) : Prop where
  depth : sh.depth = names.length
  paths : ∀ i (hi : i < names.length), sh.paths i = names[i]

/-- The shell is in the directory `d`. -/
structure At (sh : Shell) (d : Cwd) : Prop extends sh.Holds d.names where
  cwd : sh.cwd = d.bytes
  fits : d.Fits

/-- Only the current directory changed. -/
def SameBuffer (sh sh' : Shell) : Prop := sh'.blksiz = sh.blksiz ∧ sh'.blkbuf = sh.blkbuf

theorem at_start : start.At .root where
  depth := rfl
  paths := fun i hi => absurd hi (Nat.not_lt_zero i)
  cwd := rfl
  fits := ⟨by decide, by simp [Cwd.root], by decide⟩

theorem Holds.rows (h : sh.Holds names) :
    (List.range sh.depth).flatMap (fun i => 47 :: sh.paths i) = names.flatMap (47 :: ·) := by
  have hmap : (List.range sh.depth).map sh.paths = names := by
    rw [h.depth]
    refine List.ext_getElem (by simp) fun i hi hi' => ?_
    simp [h.paths i hi']
  rw [← List.flatMap_map (f := sh.paths) (g := (47 :: ·)), hmap]

/-- `update_cwd` returns if the string fits. -/
theorem Holds.updateCwd (h : sh.Holds d.names) (hlen : d.names.length ≤ 16) (hshort : ∀ n ∈ d.names, n.length < 44) :
    (d.Fits → Checked.Returns sh.updateCwd) ∧
      ∀ sh', sh.updateCwd = .ok sh' → sh'.At d ∧ SameBuffer sh sh' := by
  unfold Shell.updateCwd copyTo
  rw [h.rows]
  constructor
  · intro hfits
    have hlt : (d.names.flatMap (47 :: ·)).length < 128 := hfits.2.2
    exact ⟨_, by rw [if_pos hlt]; rfl⟩
  · intro sh' hsh
    split at hsh
    · next hlt =>
      obtain rfl := Except.ok.inj hsh
      exact ⟨⟨⟨h.depth, h.paths⟩, rfl, hlen, hshort, hlt⟩, rfl, rfl⟩
    · exact absurd hsh (by simp [bind, Except.bind])

/-- The names that are pushed. -/
theorem Holds.pushNames (h : sh.Holds names) (more : List Name) (hlen : names.length ≤ 16) :
    ((names ++ more).length ≤ 16 → (∀ n ∈ more, n.length < 44) → Checked.Returns (sh.pushNames more)) ∧
      ∀ sh', sh.pushNames more = .ok sh' → (names ++ more).length ≤ 16 ∧ (∀ n ∈ more, n.length < 44) ∧
        sh'.Holds (names ++ more) ∧ SameBuffer sh sh' := by
  induction more generalizing sh names with
  | nil =>
    refine ⟨fun _ _ => ⟨sh, rfl⟩, fun sh' hsh => ?_⟩
    obtain rfl := Except.ok.inj hsh
    rw [List.append_nil]
    exact ⟨hlen, by simp, h, rfl, rfl⟩
  | cons n more ih =>
    -- the row that the name is copied to
    have hnext : Holds { sh with paths := update sh.paths sh.depth n, depth := sh.depth + 1 } (names ++ [n]) := by
      refine ⟨by simp [h.depth], fun i hi => ?_⟩
      rw [List.length_append, List.length_singleton] at hi
      rcases Nat.lt_or_eq_of_le (Nat.le_of_lt_succ hi) with hlt | rfl
      · rw [List.getElem_append_left hlt, ← h.paths i hlt]
        exact update_of_ne (by rw [h.depth]; exact hlt.ne) _ _
      · simp [h.depth]
    have happend : names ++ n :: more = (names ++ [n]) ++ more := by simp
    rw [Shell.pushNames, h.depth, happend]
    constructor
    · intro hfit hshort
      rw [List.length_append, List.length_append, List.length_singleton] at hfit
      have hn := hshort n List.mem_cons_self
      rw [if_pos (by omega), copyTo, if_pos hn, ← h.depth]
      refine (ih hnext (by simp; omega)).1 ?_ fun m hm => hshort m (List.mem_cons_of_mem n hm)
      simp only [List.length_append, List.length_singleton]
      omega
    · intro sh' hsh
      split at hsh
      · next hlt =>
        rw [copyTo] at hsh
        split at hsh
        · next hn =>
          rw [← h.depth] at hsh
          obtain ⟨hfit, hshort, hholds, hsame⟩ := (ih hnext (by simp; omega)).2 sh' hsh
          refine ⟨hfit, fun m hm => ?_, hholds, hsame⟩
          rcases List.mem_cons.1 hm with rfl | hm
          · exact hn
          · exact hshort m hm
        · exact absurd hsh (by simp [bind, Except.bind])
      · exact absurd hsh (by simp)

/-- **A change of directory** returns if the new directory fits, and leads there. -/
theorem At.doCd (h : sh.At d) (dir : Path) :
    ((d.cd dir).Fits → Checked.Returns (sh.doCd dir.bytes)) ∧
      ∀ sh', sh.doCd dir.bytes = .ok sh' → sh'.At (d.cd dir) ∧ SameBuffer sh sh' := by
  obtain ⟨hlen, hshort, -⟩ := h.fits
  unfold Shell.doCd Cwd.cd
  split
  · -- one name less
    have hholds : Holds { sh with depth := sh.depth - 1 } d.names.dropLast := by
      refine ⟨by simp [h.depth], fun i hi => ?_⟩
      rw [List.getElem_dropLast]
      exact h.paths i (by rw [List.length_dropLast] at hi; omega)
    refine hholds.updateCwd (d := ⟨d.names.dropLast, _⟩) ?_ fun n hn => hshort n (List.mem_of_mem_dropLast hn)
    rw [List.length_dropLast]
    omega
  · have hholds : Holds (if dir.bytes.head? = some 47 then { sh with depth := 0 } else sh) (d.base dir) := by
      unfold Cwd.base
      split
      · exact ⟨rfl, fun i hi => absurd hi (Nat.not_lt_zero i)⟩
      · exact h.toHolds
    have hbase : (d.base dir).length ≤ 16 ∧ ∀ n ∈ d.base dir, n.length < 44 := by
      unfold Cwd.base
      split
      · simp
      · exact ⟨hlen, hshort⟩
    have hsame : SameBuffer sh (if dir.bytes.head? = some 47 then { sh with depth := 0 } else sh) := by
      split <;> exact ⟨rfl, rfl⟩
    have hpush := hholds.pushNames (dir.tokens.take 10) hbase.1
    have hsplit : split 10 isSlash dir.bytes = dir.tokens.take 10 := rfl
    rw [hsplit]
    constructor
    · intro hfits
      obtain ⟨u, hu⟩ := hpush.1 hfits.1 fun n hn => hfits.2.1 n (List.mem_append_right _ hn)
      obtain ⟨hfit, hmore, hu', -⟩ := hpush.2 u hu
      rw [hu]
      exact (hu'.updateCwd (d := ⟨d.base dir ++ dir.tokens.take 10, _⟩) hfit hfits.2.1).1 hfits
    · intro sh' hsh
      rw [Checked.bind_eq_ok] at hsh
      obtain ⟨u, hu, hsh⟩ := hsh
      obtain ⟨hfit, hmore, hu', hsame'⟩ := hpush.2 u hu
      have hall : ∀ n ∈ d.base dir ++ dir.tokens.take 10, n.length < 44 := fun n hn =>
        (List.mem_append.1 hn).elim (hbase.2 n) (hmore n)
      obtain ⟨hat, hsame''⟩ := (hu'.updateCwd (d := ⟨d.base dir ++ dir.tokens.take 10, _⟩) hfit hall).2 sh' hsh
      refine ⟨hat, ?_, ?_⟩
      · rw [hsame''.1, hsame'.1, hsame.1]
      · rw [hsame''.2, hsame'.2, hsame.2]

/-- `cd` one time after another. -/
def cds (sh : Shell) : List Path → Except ShellFault Shell
  | [] => .ok sh
  | dir :: rest => do
    let sh ← sh.doCd dir.bytes
    sh.cds rest

/-- Changes of directory return if every directory on the way fits. -/
theorem At.cds (h : sh.At d) (dirs : List Path) :
    (Checked.Returns (sh.cds dirs) ↔ ∀ k ≤ dirs.length, (d.cdAll (dirs.take k)).Fits) ∧
      ∀ sh', sh.cds dirs = .ok sh' → sh'.At (d.cdAll dirs) := by
  induction dirs generalizing sh d with
  | nil =>
    refine ⟨⟨fun _ k _ => ?_, fun _ => ⟨sh, rfl⟩⟩, fun sh' hsh => ?_⟩
    · rw [List.take_nil]
      exact h.fits
    · obtain rfl := Except.ok.inj hsh
      exact h
  | cons dir rest ih =>
    obtain ⟨hreturns, hat⟩ := h.doCd dir
    rw [Shell.cds]
    refine ⟨⟨?_, fun hfits => ?_⟩, fun sh' hsh => ?_⟩
    · rintro ⟨sh', hsh⟩ k hk
      rw [Checked.bind_eq_ok] at hsh
      obtain ⟨u, hu, hsh⟩ := hsh
      cases k with
      | zero => exact h.fits
      | succ k =>
        rw [List.length_cons] at hk
        exact (ih (hat u hu).1).1.1 ⟨sh', hsh⟩ k (by omega)
    · obtain ⟨u, hu⟩ := hreturns (hfits 1 (by simp))
      rw [hu]
      refine (ih (hat u hu).1).1.2 fun k hk => hfits (k + 1) ?_
      rw [List.length_cons]
      omega
    · rw [Checked.bind_eq_ok] at hsh
      obtain ⟨u, hu, hsh⟩ := hsh
      exact (ih (hat u hu).1).2 sh' hsh

/-! ## The paths that commands make -/

/-- Pieces without two dots at the end, but for the last one, are left alone. -/
theorem runOn_eq_self (hne : pieces ≠ []) (h : ∀ c ∈ pieces.dropLast, ¬ [46, 46] <:+ c) :
    runOn [] pieces = pieces := by
  induction pieces with
  | nil => exact absurd rfl hne
  | cons c rest ih =>
    cases rest with
    | nil => rfl
    | cons d rest =>
      rw [List.dropLast_cons_cons] at h
      rw [runOn, if_neg (h c List.mem_cons_self), ih (List.cons_ne_nil _ _) fun a ha => h a (List.mem_cons_of_mem c ha)]
      rfl

/-- The names that an operation gets, if no name but the last ends in two dots. -/
theorem below_eq (h : ∀ n ∈ d.names ++ (arg.bytes.splitOnP isSlash).dropLast, ¬ [46, 46] <:+ n) :
    d.below arg = d.names ++ arg.tokens := by
  have hne := List.splitOnP_ne_nil isSlash arg.bytes
  have hnames : d.names.filter (fun w => !w.isEmpty) = d.names :=
    List.filter_eq_self.2 fun n hn => by simp [(d.component n hn).ne_nil]
  rw [Cwd.below, runOn_eq_self (by simp [hne]) (by rw [List.dropLast_append_of_ne_nil hne]; exact h),
    List.filter_append, hnames]
  rfl

/-- **The path that a command makes.** -/
theorem At.pathTo (h : sh.At d) (arg : Path) :
    (Checked.Returns (sh.pathTo arg.bytes) ↔ d.bytes.length + 1 + arg.bytes.length < 128) ∧
      ∀ path, sh.pathTo arg.bytes = .ok path → path.tokens = d.below arg ∧ path.tokens.length ≤ 63 := by
  have hnul : 0 ∉ fixPath (d.bytes ++ 47 :: arg.bytes) := by
    intro h0
    rcases List.mem_append.1 (mem_of_mem_fixPath h0) with h0 | h0
    · exact d.nul_notMem_bytes h0
    · rcases List.mem_cons.1 h0 with h0 | h0
      · exact absurd h0 (by decide)
      · exact arg.nul_notMem h0
  have hlength : (d.bytes ++ 47 :: arg.bytes).length = d.bytes.length + 1 + arg.bytes.length := by
    simp [Nat.add_assoc, Nat.add_comm 1]
  unfold Shell.pathTo pathBelow copyTo
  rw [h.cwd, hlength]
  split
  · next hlt =>
    refine ⟨iff_of_true ⟨_, rfl⟩ hlt, fun path hpath => ?_⟩
    obtain rfl := Except.ok.inj hpath
    rw [tokens_eq_words, bytes_cString hnul]
    constructor
    · have hletters : Letters isSlash ([] : Name) := by simp [Letters]
      have hsplit : (d.bytes ++ 47 :: arg.bytes).splitOnP isSlash =
          [] :: (d.names ++ arg.bytes.splitOnP isSlash) :=
        splitOnP_flatMap (by rfl) (fun n hn => letters_of_isComponent (d.component n hn)) _
      rw [← List.nil_append (fixPath _), words_fixPath hletters, hsplit,
        runOn_nil_cons (by simp [List.splitOnP_ne_nil]), List.filter_cons]
      rfl
    · -- the path starts with a slash, so there is room for 63 names
      obtain ⟨q, hq⟩ : ∃ q, d.bytes ++ 47 :: arg.bytes = 47 :: q := by
        unfold Cwd.bytes
        cases d.names with
        | nil => exact ⟨_, rfl⟩
        | cons n rest => exact ⟨_, rfl⟩
      obtain ⟨r, hr⟩ := exists_fixPath_slash q
      have hle := length_fixPath_le (47 :: q)
      have hwords := two_mul_length_words isSlash r
      rw [← hlength, hq] at hlt
      rw [hr] at hle
      rw [hq, hr, words_cons (by rfl)]
      simp only [List.length_cons] at hlt hle
      omega
  · next hlt =>
    refine ⟨iff_of_false ?_ hlt, fun path hpath => absurd hpath (by simp [bind, Except.bind])⟩
    rintro ⟨path, hpath⟩
    exact absurd hpath (by simp [bind, Except.bind])

theorem At.nul_notMem_getCwd (h : sh.At d) : 0 ∉ sh.getCwd := by
  rw [getCwd]
  split
  · decide
  · rw [h.cwd]
    exact d.nul_notMem_bytes

/-- What `pwd` prints, cut into names. -/
theorem At.tokens_getCwd (h : sh.At d) {p : Path} (hp : p.bytes = sh.getCwd) : p.tokens = d.names := by
  rw [tokens_eq_words, hp, getCwd, h.depth]
  rcases List.eq_nil_or_concat d.names with hnil | ⟨init, last, hlast⟩
  · rw [hnil]
    rfl
  · have hletters : ∀ n ∈ d.names, Letters isSlash n := fun n hn => letters_of_isComponent (d.component n hn)
    have hbytes : d.bytes = init.flatMap (47 :: ·) ++ 47 :: last := by
      rw [Cwd.bytes, hlast]
      simp
    have hinit : ∀ n ∈ init, Letters isSlash n := fun n hn => hletters n (by rw [hlast]; simp [hn])
    have hsplit := splitOnP_flatMap (show isSlash 47 = true from rfl) hinit last
    have hsingle : last.splitOnP isSlash = [last] :=
      List.splitOnP_eq_singleton (hletters last (by rw [hlast]; simp))
    have hall : d.names.filter (fun w => !w.isEmpty) = d.names :=
      List.filter_eq_self.2 fun n hn => by simp [(d.component n hn).ne_nil]
    rw [if_neg (by rw [hlast]; simp), h.cwd, words, hbytes, hsplit, hsingle, ← List.concat_eq_append, ← hlast,
      List.filter_cons, hall]
    rfl

/-- **The current directory and the paths of the commands.**  Changes of directory return if and
only if every directory on the way fits in the arrays.  Then `cd` to what `pwd` prints leads to the
same place, unless there are more than ten names; and the names that an operation gets for an
argument, at most 63, are those of the directories followed by those of the argument, if none but
the last ends in two dots, and otherwise those of `Cwd.below`. -/
theorem paths_of_cds (dirs : List Path) :
    (Checked.Returns (start.cds dirs) ↔ ∀ k ≤ dirs.length, (Cwd.root.cdAll (dirs.take k)).Fits) ∧
      ∀ sh, start.cds dirs = .ok sh →
        (∀ p : Path, p.bytes = sh.getCwd → (Cwd.root.cd p).names = (Cwd.root.cdAll dirs).names.take 10) ∧
        ∀ arg path, sh.pathTo arg.bytes = .ok path →
          path.tokens.length ≤ 63 ∧ path.tokens = (Cwd.root.cdAll dirs).below arg ∧
          ((∀ n ∈ (Cwd.root.cdAll dirs).names ++ (arg.bytes.splitOnP isSlash).dropLast, ¬ [46, 46] <:+ n) →
            path.tokens = (Cwd.root.cdAll dirs).names ++ arg.tokens) := by
  obtain ⟨hreturns, hcds⟩ := at_start.cds dirs
  refine ⟨hreturns, fun sh hsh => ?_⟩
  have hat := hcds sh hsh
  refine ⟨fun p hp => ?_, fun arg path hpath => ?_⟩
  · have hslash : p.bytes.head? = some 47 := by
      rw [hp, getCwd, hat.depth]
      split
      · rfl
      · next hne =>
        rw [hat.cwd, Cwd.bytes]
        obtain ⟨n, rest, hn⟩ := List.exists_cons_of_ne_nil (List.ne_nil_of_length_pos (Nat.pos_of_ne_zero hne))
        rw [hn]
        rfl
    have hdots : p.bytes ≠ ascii ".." := fun heq => by
      rw [heq] at hslash
      exact absurd hslash (by decide)
    rw [Cwd.cd, if_neg hdots]
    show Cwd.root.base p ++ p.tokens.take 10 = _
    rw [Cwd.base, if_pos hslash, hat.tokens_getCwd hp]
    rfl
  · obtain ⟨htokens, hlen⟩ := (hat.pathTo arg).2 path hpath
    exact ⟨hlen, htokens, fun hno => htokens.trans (below_eq hno)⟩

/-- `a/b`, then `..`, then `c`. -/
def sampleDirs : List Path := [⟨ascii "a/b", by decide⟩, ⟨ascii "..", by decide⟩, ⟨ascii "c", by decide⟩]

/-- The argument `d/../e`. -/
def sampleArg : Path := ⟨ascii "d/../e", by decide⟩

/-- Down to `/a/c`; and there `d/../e` is `/a/c/d/e`. -/
theorem paths_of_sampleDirs : ∃ sh path, start.cds sampleDirs = .ok sh ∧
    sh.pathTo sampleArg.bytes = .ok path ∧
      path.tokens = [ascii "a", ascii "c", ascii "d", ascii "e"] := by
  obtain ⟨hreturns, hpaths⟩ := paths_of_cds sampleDirs
  obtain ⟨sh, hsh⟩ := hreturns.2 (by decide)
  have hat := (at_start.cds sampleDirs).2 sh hsh
  obtain ⟨path, hpath⟩ := (hat.pathTo sampleArg).1.2 (by decide)
  refine ⟨sh, path, hsh, hpath, ?_⟩
  rw [((hpaths sh hsh).2 sampleArg path hpath).2.1]
  decide

end Shell

end Fsx600
