import Fsx600.Properties.NamesTaken

/-!
# What a rename moves

`fs_rename` copies the new name over the old one without its NUL.  If the new name is the
longer one, or as long, the entry holds it afterwards, and the rename moves what the old
path led to and all below it, and nothing else.  If the new name is shorter, the entry holds
a third name, and the new path leads nowhere.

Renames to shorter names can also give two entries of a directory one name.  A rename of
such a name takes the first of the two entries, and then the old path leads to the second.

* `not_movesName_of_run`: one rename to a shorter name;
* `movesName_iff_of_run`: in every reachable state, the two things that go wrong are the
  only ones.
-/

namespace Fsx600

open Checked GuardedRun Mkfs

namespace FS

variable {g : Layout} {s s' : FS g} {c : Context} {a : Call} {srcPath dstPath : Path}

/-- A rename moved one name: what `srcPath` led to and all below it is now at `dstPath`, and
every other path leads where it led. -/
structure MovesName (s s' : FS g) (srcPath dstPath : Path) : Prop where
  moved : ∃ i : ℕ, s.translatePathToInum srcPath = .ok (i : ℤ) ∧
    s'.translatePathToInum dstPath = .ok (i : ℤ)
  gone : ∀ i : ℕ, s'.translatePathToInum srcPath ≠ .ok (i : ℤ)
  below : ∀ (q q' : Path) (t : List Name), t ≠ [] → q.tokens = srcPath.tokens ++ t →
    q'.tokens = dstPath.tokens ++ t → s'.translatePathToInum q' = s.translatePathToInum q
  other : ∀ q : Path, ¬ srcPath.tokens <+: q.tokens → ¬ dstPath.tokens <+: q.tokens →
    s'.translatePathToInum q = s.translatePathToInum q

/-! ## Walks in named directories -/

/-- A walk down a list of names, and then down another. -/
theorem resolve_append_of_walk {d p : ℕ} {q : List Name} (hw : s.walk d q = .inr p) (t : List Name) :
    s.resolve d (q ++ t) = s.resolve p t := by
  induction q generalizing d with
  | nil => rw [List.nil_append, Sum.inr.inj hw]
  | cons n q ih =>
    rw [walk] at hw
    rw [List.cons_append, resolve]
    cases hf : findEntry (s.dirBlock d) n with
    | none =>
      rw [hf] at hw
      exact absurd hw (by simp)
    | some j =>
      rw [hf] at hw
      dsimp only at hw ⊢
      by_cases hj : (s.entry d j).isDir = true
      · rw [if_pos hj] at hw
        rw [if_neg (by simp [hj])]
        exact ih hw
      · rw [if_neg hj] at hw
        exact absurd hw (by simp)

/-- The names that a walk follows are the names of a path. -/
theorem Held.path_of_walk (hwf : Wf s) (hn : Held s) {d p : ℕ} {q π : List Name}
    (hq : ∀ t ∈ q, 0 ∉ t) (hd : s.AllocDir d) (hπ : LabelledTree.Path s.NameEdge 1 π d)
    (hw : s.walk d q = .inr p) : LabelledTree.Path s.NameEdge 1 (π ++ q) p := by
  induction q generalizing d π with
  | nil => rwa [List.append_nil, ← Sum.inr.inj hw]
  | cons n q ih =>
    rw [walk] at hw
    cases hf : findEntry (s.dirBlock d) n with
    | none =>
      rw [hf] at hw
      exact absurd hw (by simp)
    | some j =>
      have he := edge_of_findEntry hd hf
      have hname := hn.holds_of_findEntry hd (hq n List.mem_cons_self) hf
      rw [hf] at hw
      dsimp only at hw
      by_cases hj : (s.entry d j).isDir = true
      · rw [if_pos hj] at hw
        rw [← List.singleton_append, ← List.append_assoc]
        exact ih (fun t ht => hq t (List.mem_cons_of_mem _ ht))
          ⟨(hwf.edge_child he).1, (hwf.edge_isDir he).symm.trans hj⟩ (hπ.snoc ⟨j, he, hname⟩) hw
      · rw [if_neg hj] at hw
        exact absurd hw (by simp)

theorem Held.path_of_parent (hwf : Wf s) (hn : Held s) {path : Path} {p : ℕ} {last : Name}
    (hp : s.Parent path p last) : LabelledTree.Path s.NameEdge 1 path.tokens.dropLast p :=
  hn.path_of_walk hwf (fun _ ht => path.nul_notMem_of_mem_tokens (List.mem_of_mem_dropLast ht))
    hwf.allocDir_one .nil hp.walk

/-- Two paths to names of one directory differ in the last component only. -/
theorem Held.tokens_of_parent (hwf : Wf s) (hn : Held s) {p : ℕ} {old new : Name}
    (hp : s.Parent srcPath p old) (hp' : s.Parent dstPath p new) :
    dstPath.tokens = srcPath.tokens.dropLast ++ [new] := by
  rw [hwf.nameEdge_arborescent.path_unique (hn.path_of_parent hwf hp) (hn.path_of_parent hwf hp')]
  exact hp'.tokens

section Renamed

variable {p j i : ℕ} {old new : Name}

/-! ## Lookups after a rename -/

/-- Other names, and other directories, are looked up as before. -/
theorem Renamed.findEntry_of_ne (hwf : Wf s) (hn : Held s) (hold : 0 ∉ old)
    (hj : findEntry (s.dirBlock p) old = some j) (h : Renamed c p j i new s s') {d : ℕ} {u : Name}
    (hd : s.AllocDir d) (hu : 0 ∉ u) (hne : d = p → u ≠ old ∧ u ≠ overwrite old new) :
    findEntry (s'.dirBlock d) u = findEntry (s.dirBlock d) u := by
  refine findEntry_congr fun k hk => ?_
  show ((s'.entry d k).named u && (s'.entry d k).valid) = ((s.entry d k).named u && (s.entry d k).valid)
  by_cases hdk : d = p ∧ k = j
  · obtain ⟨rfl, rfl⟩ := hdk
    obtain ⟨hfits, hh⟩ := hn.holds_of_findEntry hd hold hj
    obtain ⟨hfits', hh'⟩ := h.holds hwf hn hold hj
    have hnamed : (s.entry d k).named u = false := by
      rw [Bool.eq_false_iff, ne_eq, hh.named_iff hfits hu]
      exact (hne rfl).1
    have hnamed' : (s'.entry d k).named u = false := by
      rw [Bool.eq_false_iff, ne_eq, hh'.named_iff hfits' hu]
      exact (hne rfl).2
    rw [hnamed, hnamed', Bool.false_and, Bool.false_and]
  · rw [h.entry hwf hd, if_neg hdk]

/-- **A walk that keeps off the old and the stored name** of the directory goes where it
went.  `P` is the path to the directory, and `π` the path to where the walk begins. -/
theorem Renamed.resolve_of_avoids (hwf : Wf s) (hn : Held s) (hold : 0 ∉ old)
    (hj : findEntry (s.dirBlock p) old = some j) (h : Renamed c p j i new s s') {P π q : List Name}
    {d : ℕ} (hP : LabelledTree.Path s.NameEdge 1 P p) (hπ : LabelledTree.Path s.NameEdge 1 π d)
    (hd : q ≠ [] → s.AllocDir d) (hq : ∀ t ∈ q, 0 ∉ t)
    (hoff : ∀ u, π.length ≤ P.length → P ++ [u] <+: π ++ q → u ≠ old ∧ u ≠ overwrite old new) :
    s'.resolve d q = s.resolve d q := by
  induction q generalizing d π with
  | nil => rfl
  | cons u q ih =>
    have hdd := hd (List.cons_ne_nil _ _)
    have hu := hq u List.mem_cons_self
    have hfind := h.findEntry_of_ne hwf hn hold hj hdd hu (by
      rintro rfl
      obtain rfl := hwf.nameEdge_arborescent.path_unique hP hπ
      exact hoff u le_rfl ⟨q, List.append_assoc P [u] q⟩)
    rw [resolve, resolve, hfind]
    cases hf : findEntry (s.dirBlock d) u with
    | none => rfl
    | some k =>
      have he := edge_of_findEntry hdd hf
      have hname := hn.holds_of_findEntry hdd hu hf
      dsimp only
      rw [(h.relabelled hwf).entry_isDir d k hdd he.2.1, (h.relabelled hwf).inode d k hdd he.2.1]
      split
      · rfl
      · next hk =>
        refine ih (hπ.snoc ⟨k, he, hname⟩) (fun hne => ⟨(hwf.edge_child he).1,
          (hwf.edge_isDir he).symm.trans (by simpa [hne] using hk)⟩)
          (fun t ht => hq t (List.mem_cons_of_mem _ ht)) fun v hv hpre => ?_
        rw [List.length_append] at hv
        refine hoff v (by omega) ?_
        rwa [List.append_assoc, List.singleton_append] at hpre

/-- The directory is found where it was. -/
theorem Renamed.parent (hwf : Wf s) (hn : Held s) (hold : 0 ∉ old)
    (hj : findEntry (s.dirBlock p) old = some j) (h : Renamed c p j i new s s') {path : Path}
    {last : Name} (hp : s.Parent path p last) : s'.Parent path p last := by
  refine ⟨?_, hp.last⟩
  obtain ⟨hr, hdir⟩ := (hwf.walk_iff hwf.allocDir_one).1 hp.walk
  have hwf' := hwf.renamed h
  refine (hwf'.walk_iff hwf'.allocDir_one).2 ⟨?_, ((h.relabelled hwf).allocDir p).2 hdir⟩
  rw [h.resolve_of_avoids hwf hn hold hj (hn.path_of_parent hwf hp) .nil (fun _ => hwf.allocDir_one)
    (fun _ ht => path.nul_notMem_of_mem_tokens (List.mem_of_mem_dropLast ht)), hr]
  intro u _ hpre
  have hlen := hpre.length_le
  rw [List.length_append, List.length_singleton, List.nil_append] at hlen
  omega

/-- The new name is found if it is what was stored. -/
theorem Renamed.findEntry_new (hwf : Wf s) (hn : Held s) (hold : 0 ∉ old)
    (hj : findEntry (s.dirBlock p) old = some j) (h : Renamed c p j i new s s')
    (hstored : overwrite old new = new) : findEntry (s'.dirBlock p) new = some j := by
  obtain ⟨hfits, hh⟩ := h.holds hwf hn hold hj
  rw [hstored] at hfits hh
  have hnamed : (s'.entry p j).named new = true := (hh.named_iff hfits hfits.nul).2 rfl
  have hvalid : (s'.entry p j).valid = true :=
    ((h.relabelled hwf).valid p j h.edge.1 h.edge.2.1).trans h.edge.2.2.1
  rw [findEntry, List.find?_range_eq_some, List.mem_range]
  refine ⟨?_, h.edge.2.1, fun k hk => ?_⟩
  · show ((s'.entry p j).named new && (s'.entry p j).valid) = true
    rw [hnamed, hvalid]
    rfl
  · have := h.edge.2.1
    show (!((s'.entry p k).named new && (s'.entry p k).valid)) = true
    rw [h.entry hwf h.edge.1, if_neg (by omega), h.unused k (by omega)]
    rfl

/-- If it is not, the new name is not found. -/
theorem Renamed.child_new_of_ne (hwf : Wf s) (hn : Held s) (hold : 0 ∉ old)
    (hj : findEntry (s.dirBlock p) old = some j) (h : Renamed c p j i new s s')
    (hstored : overwrite old new ≠ new) (x : ℕ) : s'.child p new ≠ .inr x := by
  intro hx
  obtain ⟨k, hk, -, hnamed⟩ := child_isInr_iff.1 ⟨x, hx⟩
  rw [h.entry hwf h.edge.1] at hnamed
  split at hnamed
  · next hkj =>
    obtain ⟨hfits, hh⟩ := h.holds hwf hn hold hj
    rw [h.entry hwf h.edge.1, if_pos ⟨rfl, rfl⟩] at hh
    exact hstored ((hh.named_iff hfits h.fits.nul).1 hnamed).symm
  · rw [h.unused k hk] at hnamed
    exact Bool.noConfusion hnamed

/-- The old name is found again if another entry has it. -/
theorem Renamed.child_old_iff (hwf : Wf s) (hn : Held s) (hold : 0 ∉ old)
    (hj : findEntry (s.dirBlock p) old = some j) (h : Renamed c p j i new s s')
    (hstored : overwrite old new ≠ old) : (∃ x, s'.child p old = .inr x) ↔
      ∃ k < 32, k ≠ j ∧ (s.entry p k).valid = true ∧ (s.entry p k).named old = true := by
  obtain ⟨hfits, hh⟩ := h.holds hwf hn hold hj
  rw [child_isInr_iff]
  refine exists_congr fun k => and_congr_right fun hk => ?_
  by_cases hkj : k = j
  · subst hkj
    have hnamed : (s'.entry p k).named old = false := by
      rw [Bool.eq_false_iff, ne_eq, hh.named_iff hfits hold]
      exact hstored.symm
    rw [hnamed]
    exact ⟨fun hf => Bool.noConfusion hf.2, fun hf => absurd rfl hf.1⟩
  · rw [h.entry hwf h.edge.1, if_neg fun hpk => hkj hpk.2]
    exact ⟨fun hk' => ⟨hkj, hk'⟩, And.right⟩

theorem Renamed.ne_old (hj : findEntry (s.dirBlock p) old = some j) (h : Renamed c p j i new s s') :
    new ≠ old := by
  rintro rfl
  exact Bool.false_ne_true ((h.unused j h.edge.2.1).symm.trans (findEntry_eq_some hj).2.1)

/-- What was below the old name is below the new one, if that is what was stored. -/
theorem Renamed.resolve_below (hwf : Wf s) (hn : Held s) (hold : 0 ∉ old)
    (hj : findEntry (s.dirBlock p) old = some j) (h : Renamed c p j i new s s')
    (hstored : overwrite old new = new) {P : List Name} (hP : LabelledTree.Path s.NameEdge 1 P p)
    {t : List Name} (ht : ∀ u ∈ t, 0 ∉ u) : s'.resolve p (new :: t) = s.resolve p (old :: t) := by
  rw [resolve, resolve, h.findEntry_new hwf hn hold hj hstored, hj]
  dsimp only
  rw [(h.relabelled hwf).entry_isDir p j h.edge.1 h.edge.2.1,
    (h.relabelled hwf).inode p j h.edge.1 h.edge.2.1, h.edge.2.2.2]
  split
  · rfl
  · next hdir =>
    -- from the entry no walk comes back to the directory
    refine h.resolve_of_avoids hwf hn hold hj hP
      (hP.snoc ⟨j, h.edge, hn.holds_of_findEntry h.edge.1 hold hj⟩) (fun hne => ?_) ht fun u hle _ => ?_
    · exact ⟨(hwf.edge_child h.edge).1, (hwf.edge_isDir h.edge).symm.trans (by simpa [hne] using hdir)⟩
    · rw [List.length_append, List.length_singleton] at hle
      omega

/-! ## The law -/

/-- A new name that is no shorter than an old one without a second entry: the rename moves
the name. -/
theorem Renamed.movesName (hs : Indexed s) (hs' : Indexed s') (hn : Held s)
    (hp : s.Parent srcPath p old) (hp' : s.Parent dstPath p new)
    (hj : findEntry (s.dirBlock p) old = some j) (h : Renamed c p j i new s s')
    (hlen : old.length ≤ new.length) (honce : ∀ k < 32, (s.entry p k).valid = true →
      (s.entry p k).named old = true → k = j) : MovesName s s' srcPath dstPath := by
  have hwf := hs.toWf
  have hold : 0 ∉ old := srcPath.nul_notMem_of_mem_tokens hp.mem
  have hstored : overwrite old new = new := overwrite_of_le hlen
  have hP := hn.path_of_parent hwf hp
  have hsrc := hp.tokens
  have hdst := hn.tokens_of_parent hwf hp hp'
  have hpar := h.parent hwf hn hold hj hp
  have hbelow : ∀ t, (∀ u ∈ t, 0 ∉ u) →
      s'.resolve 1 (dstPath.tokens ++ t) = s.resolve 1 (srcPath.tokens ++ t) := fun t ht => by
    rw [hsrc, hdst, List.append_assoc, List.append_assoc, resolve_append_of_walk hpar.walk,
      resolve_append_of_walk hp.walk]
    exact h.resolve_below hwf hn hold hj hstored hP ht
  have hi : s.resolve 1 srcPath.tokens = .inr i := by
    rw [hp.resolve, child, hj]
    exact congrArg Sum.inr h.edge.2.2.2
  refine ⟨⟨i, hs.translate_iff.2 hi, hs'.translate_iff.2 ?_⟩, fun x hx => ?_,
    fun q q' t _ hq hq' => ?_, fun q hq hq' => ?_⟩
  · have hself := hbelow [] (fun _ hu => absurd hu List.not_mem_nil)
    rwa [List.append_nil, List.append_nil, hi] at hself
  · obtain ⟨k, hk, hkj, hv, hnamed⟩ := (h.child_old_iff hwf hn hold hj (hstored.trans_ne (h.ne_old hj))).1
      ⟨x, hpar.resolve.symm.trans (resolve_of_translate hx)⟩
    exact hkj (honce k hk hv hnamed)
  · refine hs.translate_congr hs' ?_ ?_
    · rw [hq, hq', hdst, List.length_append, List.length_append, hsrc, List.dropLast_concat,
        List.length_append, List.length_append, List.length_singleton, List.length_singleton]
    · rw [hq, hq', hbelow]
      exact fun u hu => q.nul_notMem_of_mem_tokens (by rw [hq]; exact List.mem_append_right _ hu)
  · refine hs.translate_congr hs' rfl ?_
    refine h.resolve_of_avoids hwf hn hold hj hP .nil (fun _ => hwf.allocDir_one)
      (fun t ht => q.nul_notMem_of_mem_tokens ht) fun u _ hpre => ⟨?_, ?_⟩
    · rintro rfl
      exact hq (hsrc ▸ hpre)
    · rw [hstored]
      rintro rfl
      exact hq' (hdst ▸ hpre)

/-- A rename that moved the name had a new name that is no shorter, and took the only entry
of the old name. -/
theorem Renamed.of_movesName (hwf : Wf s) (hs' : Indexed s') (hn : Held s)
    (hp : s.Parent srcPath p old) (hp' : s.Parent dstPath p new)
    (hj : findEntry (s.dirBlock p) old = some j) (h : Renamed c p j i new s s')
    (hlaw : MovesName s s' srcPath dstPath) :
    old.length ≤ new.length ∧ ∀ k < 32, (s.entry p k).valid = true →
      (s.entry p k).named old = true → k = j := by
  have hold : 0 ∉ old := srcPath.nul_notMem_of_mem_tokens hp.mem
  have hsrc := h.parent hwf hn hold hj hp
  have hdst := h.parent hwf hn hold hj hp'
  obtain ⟨x, -, hx⟩ := hlaw.moved
  have hstored : overwrite old new = new := by
    by_contra hne
    exact h.child_new_of_ne hwf hn hold hj hne x (hdst.resolve.symm.trans (resolve_of_translate hx))
  have hlen : old.length ≤ new.length := by
    have hmax := length_overwrite old new
    rw [hstored] at hmax
    omega
  refine ⟨hlen, fun k hk hv hnamed => ?_⟩
  by_contra hkj
  obtain ⟨y, hy⟩ := (h.child_old_iff hwf hn hold hj (hstored.trans_ne (h.ne_old hj))).2
    ⟨k, hk, hkj, hv, hnamed⟩
  exact hlaw.gone y (hs'.translate_iff.2 (hsrc.resolve.trans hy))

end Renamed

/-! ## Runs -/

theorem Held.step (hwf : Wf s) (hn : Held s) (ha : a.OnEntries) (h : s.Step a s') : Held s' := by
  obtain ⟨c, r, h⟩ := h
  cases a with
  | mknod path mode => exact hn.of_mknodResult hwf (fsMknod_ok hwf h)
  | mkdir path mode => exact hn.of_mknodResult hwf (fsMkdir_ok hwf h)
  | unlink path => exact hn.of_unlinkResult hwf (fsUnlink_ok hwf h)
  | rmdir path => exact hn.of_rmdirResult hwf (fsRmdir_ok hwf h)
  | rename srcPath dstPath => exact hn.of_renameResult hwf (fsRename_ok hwf h)
  | chmod | utime | truncate | write => exact ha.elim

theorem held_of_run {n : ℕ} (h : Formattable n) (t : UInt32) {s : FS (layout h)}
    (hrun : Run Step (fun _ a => a.OnEntries) (fresh h t) s) : Indexed s ∧ Held s :=
  hrun.invariant (P := fun s => Indexed s ∧ Held s) ⟨indexed_fresh h t, (named_fresh h t).held⟩
    fun _ _ _ hs ha hstep => ⟨hs.1.step ha hstep, hs.2.step hs.1.toWf ha hstep⟩

/-- **What a rename moves.**  In every state of a run from a freshly formatted image, a
rename that returns 0 moves its name exactly when the new name is no shorter than the old
one and no other valid entry of the directory has the old one. -/
theorem movesName_iff_of_run {n : ℕ} (h : Formattable n) (t : UInt32) (s : FS (layout h))
    (hrun : Run Step (fun _ a => a.OnEntries) (fresh h t) s) (c : Context) (srcPath dstPath : Path)
    (s' : FS (layout h)) (hr : s.fsRename c srcPath dstPath = .ok (0, s')) :
    MovesName s s' srcPath dstPath ↔
      ∀ p old new, s.Parent srcPath p old → s.Parent dstPath p new → old.length ≤ new.length ∧
        ∀ j < 32, ∀ k < 32, (s.entry p j).valid = true → (s.entry p k).valid = true →
          (s.entry p j).named old = true → (s.entry p k).named old = true → j = k := by
  obtain ⟨hs, hn⟩ := held_of_run h t hrun
  have hres := fsRename_ok hs.toWf hr
  have hs' := hs.of_renameResult hres
  generalize h0 : (0 : ℤ) = r at hres
  cases hres with
  | badPath hbad => exact absurd h0.symm (error_neg (resolve_error hbad)).ne
  | otherDir => exact absurd h0 (by decide)
  | taken => exact absurd h0 (by decide)
  | @renamed p j i old new _ hp hp' hi hj hren =>
    obtain ⟨hj32, hnamed, hv, -⟩ := findEntry_eq_some hj
    constructor
    · intro hlaw q old' new' hq hq'
      obtain rfl := Sum.inr.inj (hp.walk.symm.trans hq.walk)
      obtain rfl := Option.some.inj (hp.last.symm.trans hq.last)
      obtain rfl := Option.some.inj (hp'.last.symm.trans hq'.last)
      obtain ⟨hlen, honce⟩ := hren.of_movesName hs.toWf hs' hn hp hp' hj hlaw
      exact ⟨hlen, fun k hk l hl hkv hlv hkn hln =>
        (honce k hk hkv hkn).trans (honce l hl hlv hln).symm⟩
    · intro hcond
      obtain ⟨hlen, honce⟩ := hcond p old new hp hp'
      exact hren.movesName hs hs' hn hp hp' hj hlen fun k hk hkv hkn =>
        honce k hk j hj32 hkv hv hkn hnamed

/-- `mkdir /a` and `mknod /a/b`. -/
def nestedRun : List Call := [.mkdir pathA 0x1ED, .mknod pathAB 0x81A4]

/-- Renaming the directory `/a` to `/b` moves the file in it. -/
theorem movesName_of_nestedRun : ∃ s s', (fresh formattable_256 0).execAll ⟨1000, 1000, 0⟩ nestedRun =
      .ok s ∧ s.fsRename ⟨1000, 1000, 0⟩ pathA pathB = .ok (0, s') ∧ MovesName s s' pathA pathB := by
  have hend : endsIn (fun s => decide (returned (s.fsRename ⟨1000, 1000, 0⟩ pathA pathB) = some 0) &&
      decide (s.walk 1 pathA.tokens.dropLast = .inr 1) &&
      (List.range 32).all fun k => !(s.entry 1 k).valid || k == 0)
      ((fresh formattable_256 0).execAll ⟨1000, 1000, 0⟩ nestedRun) = true := by
    decide +kernel
  obtain ⟨s, hs, ht⟩ := exists_of_endsIn hend
  simp only [Bool.and_eq_true, decide_eq_true_iff, List.all_eq_true, List.mem_range, Bool.or_eq_true,
    Bool.not_eq_true', beq_iff_eq] at ht
  obtain ⟨⟨hrename, hwalk⟩, hslots⟩ := ht
  obtain ⟨s', hs'⟩ := exists_of_returned hrename
  have hrun : Run Step (fun _ a => a.OnEntries) (fresh formattable_256 0) s :=
    run_of_execAll hs fun _ a ha => by
      simp only [nestedRun, List.mem_cons, List.not_mem_nil, or_false] at ha
      rcases ha with rfl | rfl <;> trivial
  refine ⟨s, s', hs, hs', (movesName_iff_of_run formattable_256 0 s hrun _ _ _ _ hs').2 ?_⟩
  intro p old new hp hp'
  have hA : pathA.tokens = [[97]] := by decide +kernel
  have hB : pathB.tokens = [[98]] := by decide +kernel
  obtain rfl := Sum.inr.inj (hwalk.symm.trans hp.walk)
  have hold := hp.last
  have hnew := hp'.last
  rw [hA, List.getLast?_singleton, Option.some.injEq] at hold
  rw [hB, List.getLast?_singleton, Option.some.injEq] at hnew
  subst hold hnew
  refine ⟨le_rfl, fun j hj k hk hv hv' _ _ => ?_⟩
  rw [(hslots j hj).resolve_left (by simp [hv]), (hslots k hk).resolve_left (by simp [hv'])]

/-- The path `/aa`. -/
def pathAA : Path := ⟨[47, 97, 97], by decide⟩

/-- Renaming `/aa` to `/b` stores `ba`, and `/b` leads nowhere. -/
theorem not_movesName_of_run : ¬ ∀ (n : ℕ) (h : Formattable n) (t : UInt32) (s : FS (layout h)),
    Run Step (fun _ a => a.OnEntries ∧ a.Proper) (fresh h t) s → ∀ (c : Context)
      (srcPath dstPath : Path) (s' : FS (layout h)), srcPath.Proper → dstPath.Proper →
      s.fsRename c srcPath dstPath = .ok (0, s') → MovesName s s' srcPath dstPath := by
  intro hall
  have hend : endsIn (fun s => decide (returned (s.fsRename ⟨1000, 1000, 0⟩ pathAA pathB) = some 0) &&
      endsIn (fun s' => decide (s'.resolve 1 pathB.tokens = .inl (-ENOENT)))
        ((s.fsRename ⟨1000, 1000, 0⟩ pathAA pathB).map Prod.snd))
      ((fresh formattable_256 0).execAll ⟨1000, 1000, 0⟩ [.mknod pathAA 0x81A4]) = true := by
    decide +kernel
  obtain ⟨s, hs, ht⟩ := exists_of_endsIn hend
  rw [Bool.and_eq_true, decide_eq_true_iff] at ht
  obtain ⟨hrename, hnone⟩ := ht
  obtain ⟨s', hs'⟩ := exists_of_returned hrename
  have hnone : s'.resolve 1 pathB.tokens = .inl (-ENOENT) := by
    rw [hs'] at hnone
    exact of_decide_eq_true hnone
  have hrun : Run Step (fun _ a => a.OnEntries ∧ a.Proper) (fresh formattable_256 0) s :=
    run_of_execAll hs fun _ a ha => by
      rw [List.mem_singleton] at ha
      exact ha ▸ ⟨trivial, by decide +kernel⟩
  obtain ⟨i, -, hi⟩ := (hall 256 formattable_256 0 s hrun ⟨1000, 1000, 0⟩ pathAA pathB s'
    (by decide +kernel) (by decide +kernel) hs').moved
  exact absurd (hnone.symm.trans (resolve_of_translate hi)) (by simp)

end FS

end Fsx600
