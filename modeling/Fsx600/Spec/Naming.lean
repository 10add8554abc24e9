import Fsx600.Spec.Preservation
import Fsx600.Spec.Fresh

/-!
# Directories with distinct names

`Named` says that every valid entry holds a name and that no directory holds one twice;
then a lookup by name finds the one entry there is (`Named.findEntry_eq`).  Creating and
removing keep it.  Renaming keeps it if what `fs_rename` stores, which is not always the
name it was given, is not the name of another entry.
-/

namespace Fsx600

open Checked Function

theorem Dirent.Holds.unique {d : Dirent} {t u : Name} (ht : d.Holds t) (hu : d.Holds u)
    (hft : Name.Fits t) (hfu : Name.Fits u) : t = u := by
  have h1 := hft.length_le
  have h2 := hfu.length_le
  rw [← Dirent.cname_of_holds ht hft.nul (by omega), Dirent.cname_of_holds hu hfu.nul (by omega)]

/-- `strcmp` on a field that holds a name. -/
theorem Dirent.Holds.named_iff {d : Dirent} {t u : Name} (ht : d.Holds t) (hft : Name.Fits t)
    (hu : 0 ∉ u) : d.named u = true ↔ u = t := by
  have := hft.length_le
  exact Dirent.named_iff ht hft.nul (by omega) hu

namespace FS

variable {g : Layout} {s s' : FS g} {c : Context}

/-- Every valid entry holds a name. -/
structure Held (s : FS g) : Prop where
  holds : ∀ {d j i}, s.Edge d j i → ∃ t, Name.Fits t ∧ (s.entry d j).Holds t

/-- Every valid entry holds a name, and no directory holds a name twice. -/
structure Named (s : FS g) : Prop where
  holds : ∀ {d j i}, s.Edge d j i → ∃ t, Name.Fits t ∧ (s.entry d j).Holds t
  distinct : ∀ {d j k i i' t}, s.Edge d j i → s.Edge d k i' → Name.Fits t →
    (s.entry d j).Holds t → (s.entry d k).Holds t → j = k

theorem Named.held (hn : Named s) : Held s := ⟨hn.holds⟩

/-- A lookup finds the entry that holds the name. -/
theorem Named.findEntry_eq (hn : Named s) {d j i : ℕ} {t : Name} (he : s.Edge d j i)
    (ht : Name.Fits t) (hh : (s.entry d j).Holds t) : findEntry (s.dirBlock d) t = some j := by
  have hnamed : (s.entry d j).named t = true := (hh.named_iff ht ht.nul).2 rfl
  cases hf : findEntry (s.dirBlock d) t with
  | none => exact absurd ((findEntry_eq_none hf j he.2.1 hnamed).symm.trans he.2.2.1) Bool.false_ne_true
  | some k =>
    obtain ⟨-, hk, -, -⟩ := findEntry_eq_some hf
    have he' := edge_of_findEntry he.1 hf
    obtain ⟨u, hu, hhu⟩ := hn.holds he'
    obtain rfl := (hhu.named_iff hu ht.nul).1 hk
    rw [hn.distinct he' he ht hhu hh]

/-- What a lookup finds holds the name. -/
theorem Held.holds_of_findEntry (hn : Held s) {d j : ℕ} {t : Name} (hd : s.AllocDir d) (ht : 0 ∉ t)
    (hf : findEntry (s.dirBlock d) t = some j) : Name.Fits t ∧ (s.entry d j).Holds t := by
  obtain ⟨-, hnamed, -, -⟩ := findEntry_eq_some hf
  obtain ⟨u, hu, hhu⟩ := hn.holds (edge_of_findEntry hd hf)
  obtain rfl := (hhu.named_iff hu ht).1 hnamed
  exact ⟨hu, hhu⟩

/-- States with the same entries. -/
theorem Held.congr (hn : Held s) (hedge : ∀ d j i, s'.Edge d j i → s.Edge d j i)
    (hentry : ∀ d j i, s'.Edge d j i → s'.entry d j = s.entry d j) : Held s' where
  holds := fun he => by
    rw [hentry _ _ _ he]
    exact hn.holds (hedge _ _ _ he)

theorem Named.congr (hn : Named s) (hedge : ∀ d j i, s'.Edge d j i → s.Edge d j i)
    (hentry : ∀ d j i, s'.Edge d j i → s'.entry d j = s.entry d j) : Named s' where
  holds := (hn.held.congr hedge hentry).holds
  distinct := fun he he' ht => by
    rw [hentry _ _ _ he, hentry _ _ _ he']
    exact hn.distinct (hedge _ _ _ he) (hedge _ _ _ he') ht

/-- A flush of the inode map changes no entry. -/
theorem Wf.writeInodeMap_edge (hwf : Wf s) (d j i : ℕ) (he : s.writeInodeMap.Edge d j i) :
    s.Edge d j i ∧ s.writeInodeMap.entry d j = s.entry d j := by
  have hblock : ∀ d, s.AllocDir d → s.writeInodeMap.dirBlock d = s.dirBlock d :=
    fun d hd => disk_writeInodeMap s (hwf.dirBlock_inUse hd).1
  have hrel : Relabelled s s.writeInodeMap := hwf.relabelled_of_dirBlock rfl (fun _ _ => rfl) hblock
  have he := (hrel.edge d j i).1 he
  exact ⟨he, by rw [entry, hblock d he.1, entry]⟩

theorem Held.writeInodeMap (hwf : Wf s) (hn : Held s) : Held s.writeInodeMap :=
  hn.congr (fun d j i he => (hwf.writeInodeMap_edge d j i he).1)
    fun d j i he => (hwf.writeInodeMap_edge d j i he).2

theorem Named.writeInodeMap (hwf : Wf s) (hn : Named s) : Named s.writeInodeMap :=
  hn.congr (fun d j i he => (hwf.writeInodeMap_edge d j i he).1)
    fun d j i he => (hwf.writeInodeMap_edge d j i he).2

theorem Created.holds (hwf : Wf s) {mode : UInt32} {p j n : ℕ} {name : Name} {fresh : Option ℕ}
    (h : Created c mode p j n name fresh s s') : (s'.entry p j).Holds name := by
  rw [h.entry hwf h.parent, if_pos ⟨rfl, rfl⟩]
  exact newDirent_holds mode n

theorem Created.entry_of_edge (hwf : Wf s) {mode : UInt32} {p j n : ℕ} {name : Name}
    {fresh : Option ℕ} (h : Created c mode p j n name fresh s s') {d k i : ℕ} (he : s.Edge d k i) :
    s'.entry d k = s.entry d k := by
  rw [h.entry hwf he.1, if_neg]
  rintro ⟨rfl, rfl⟩
  exact Bool.false_ne_true (h.slot_free.symm.trans he.2.2.1)

theorem Held.created (hwf : Wf s) (hn : Held s) {mode : UInt32} {p j n : ℕ} {name : Name}
    {fresh : Option ℕ} (h : Created c mode p j n name fresh s s') : Held s' where
  holds := fun {d k i} he => by
    rcases (h.edge_iff hwf d k i).1 he with he | ⟨rfl, rfl, rfl⟩
    · rw [h.entry_of_edge hwf he]
      exact hn.holds he
    · exact ⟨name, h.fits, h.holds hwf⟩

theorem Named.created (hwf : Wf s) (hn : Named s) {mode : UInt32} {p j n : ℕ} {name : Name}
    {fresh : Option ℕ} (h : Created c mode p j n name fresh s s') : Named s' := by
  have hnew := h.holds hwf
  have hold : ∀ {d k i}, s.Edge d k i → s'.entry d k = s.entry d k := fun he =>
    h.entry_of_edge hwf he
  -- the name was missing, so no old entry holds it
  have hfree : ∀ {k i}, s.Edge p k i → ¬ (s.entry p k).Holds name := fun {k i} he hh => by
    obtain ⟨-, hnone⟩ := child_error h.missing
    rw [hn.findEntry_eq he h.fits hh] at hnone
    exact absurd hnone (by simp)
  refine ⟨(hn.held.created hwf h).holds, fun {d k k' i i' t} he he' ht hh hh' => ?_⟩
  rcases (h.edge_iff hwf _ _ _).1 he with he | ⟨rfl, rfl, rfl⟩ <;>
    rcases (h.edge_iff hwf _ _ _).1 he' with he' | ⟨h1, h2, h3⟩
  · rw [hold he] at hh
    rw [hold he'] at hh'
    exact hn.distinct he he' ht hh hh'
  · subst h1 h2
    obtain rfl := hh'.unique hnew ht h.fits
    rw [hold he] at hh
    exact absurd hh (hfree he)
  · obtain rfl := hh.unique hnew ht h.fits
    rw [hold he'] at hh'
    exact absurd hh' (hfree he')
  · exact h2.symm

theorem Removed.entry_of_edge (hwf : Wf s) {p j i : ℕ} {e : Dirent} (h : Removed p j i e s s')
    {d k x : ℕ} (he : s'.Edge d k x) : s'.entry d k = s.entry d k := by
  obtain ⟨he', hxi⟩ := (h.edge_iff hwf d k x).1 he
  obtain ⟨hd, hdi⟩ := (h.allocDir_iff d).1 he.1
  rw [h.entry hwf hd hdi, if_neg]
  rintro ⟨rfl, rfl⟩
  exact hxi (he'.2.2.2.symm.trans h.edge.2.2.2)

theorem Held.removed (hwf : Wf s) (hn : Held s) {p j i : ℕ} {e : Dirent}
    (h : Removed p j i e s s') : Held s' :=
  hn.congr (fun d k x he => ((h.edge_iff hwf d k x).1 he).1) fun _ _ _ he => h.entry_of_edge hwf he

theorem Named.removed (hwf : Wf s) (hn : Named s) {p j i : ℕ} {e : Dirent}
    (h : Removed p j i e s s') : Named s' :=
  hn.congr (fun d k x he => ((h.edge_iff hwf d k x).1 he).1) fun _ _ _ he => h.entry_of_edge hwf he

/-- What a rename stores. -/
theorem Renamed.holds (hwf : Wf s) (hn : Held s) {p j i : ℕ} {old new : Name} (hold : 0 ∉ old)
    (hj : findEntry (s.dirBlock p) old = some j) (h : Renamed c p j i new s s') :
    Name.Fits (overwrite old new) ∧ (s'.entry p j).Holds (overwrite old new) := by
  obtain ⟨hfits, hh⟩ := hn.holds_of_findEntry h.edge.1 hold hj
  rw [h.entry hwf h.edge.1, if_pos ⟨rfl, rfl⟩]
  exact ⟨hfits.overwrite h.fits, hh.copyName new⟩

theorem Held.renamed (hwf : Wf s) (hn : Held s) {p j i : ℕ} {old new : Name} (hold : 0 ∉ old)
    (hj : findEntry (s.dirBlock p) old = some j) (h : Renamed c p j i new s s') : Held s' where
  holds := fun {d k x} he => by
    have he := ((h.relabelled hwf).edge d k x).1 he
    by_cases hdk : d = p ∧ k = j
    · obtain ⟨rfl, rfl⟩ := hdk
      exact ⟨_, h.holds hwf hn hold hj⟩
    · rw [h.entry hwf he.1, if_neg hdk]
      exact hn.holds he

/-- Renaming, when what is stored is not the name of another entry. -/
theorem Named.renamed (hwf : Wf s) (hn : Named s) {p j i : ℕ} {old new : Name} (hold : 0 ∉ old)
    (hj : findEntry (s.dirBlock p) old = some j) (h : Renamed c p j i new s s')
    (hsafe : ∀ k < 32, (s.entry p k).valid = true →
      (s.entry p k).named (overwrite old new) = true → (s.entry p k).named old = true) : Named s' := by
  obtain ⟨hfits, hh⟩ := hn.held.holds_of_findEntry h.edge.1 hold hj
  obtain ⟨hfits', hnew⟩ := h.holds hwf hn.held hold hj
  have hedge := fun d k x => (h.relabelled hwf).edge d k x
  have hother : ∀ {d k x}, s.Edge d k x → ¬ (d = p ∧ k = j) → s'.entry d k = s.entry d k :=
    fun he hne => by rw [h.entry hwf he.1, if_neg hne]
  have hfree : ∀ {k x}, s.Edge p k x → k ≠ j → ¬ (s.entry p k).Holds (overwrite old new) := by
    intro k x he hk hhk
    have hnamed := hsafe k he.2.1 he.2.2.1 ((hhk.named_iff hfits' hfits'.nul).2 rfl)
    obtain ⟨t, ht, hht⟩ := hn.holds he
    obtain rfl := (hht.named_iff ht hold).1 hnamed
    exact hk (hn.distinct he h.edge hfits hht hh)
  refine ⟨(hn.held.renamed hwf hold hj h).holds, fun {d k k' x x' t} he he' ht hht hht' => ?_⟩
  have he := (hedge _ _ _).1 he
  have he' := (hedge _ _ _).1 he'
  by_cases hk : d = p ∧ k = j <;> by_cases hk' : d = p ∧ k' = j
  · exact hk.2.trans hk'.2.symm
  · obtain ⟨rfl, rfl⟩ := hk
    obtain rfl := hht.unique hnew ht hfits'
    rw [hother he' hk'] at hht'
    exact absurd hht' (hfree he' fun hkj => hk' ⟨rfl, hkj⟩)
  · obtain ⟨rfl, rfl⟩ := hk'
    obtain rfl := hht'.unique hnew ht hfits'
    rw [hother he hk] at hht
    exact absurd hht (hfree he fun hkj => hk ⟨rfl, hkj⟩)
  · rw [hother he hk] at hht
    rw [hother he' hk'] at hht'
    exact hn.distinct he he' ht hht hht'

theorem Named.of_mknodResult (hwf : Wf s) (hn : Named s) {path : Path} {mode : UInt32} {r : ℤ}
    (h : MknodResult c s path mode r s') : Named s' := by
  cases h with
  | badPath => exact hn
  | «exists» => exact hn
  | noInode => exact hn
  | noSlot => exact hn.writeInodeMap hwf
  | noBlock => exact hn.writeInodeMap hwf
  | created _ h => exact hn.created hwf h

theorem Named.of_rmdirResult (hwf : Wf s) (hn : Named s) {path : Path} {r : ℤ}
    (h : RmdirResult s path r s') : Named s' := by
  cases h with
  | badPath => exact hn
  | notDir => exact hn
  | notEmpty => exact hn
  | removed _ _ _ h => exact hn.removed hwf h

theorem Named.of_unlinkResult (hwf : Wf s) (hn : Named s) {path : Path} {r : ℤ}
    (h : UnlinkResult s path r s') : Named s' := by
  cases h with
  | badPath => exact hn
  | isDir => exact hn
  | removed _ _ _ h => exact hn.removed hwf h

theorem Held.of_mknodResult (hwf : Wf s) (hn : Held s) {path : Path} {mode : UInt32} {r : ℤ}
    (h : MknodResult c s path mode r s') : Held s' := by
  cases h with
  | badPath => exact hn
  | «exists» => exact hn
  | noInode => exact hn
  | noSlot => exact hn.writeInodeMap hwf
  | noBlock => exact hn.writeInodeMap hwf
  | created _ h => exact hn.created hwf h

theorem Held.of_rmdirResult (hwf : Wf s) (hn : Held s) {path : Path} {r : ℤ}
    (h : RmdirResult s path r s') : Held s' := by
  cases h with
  | badPath => exact hn
  | notDir => exact hn
  | notEmpty => exact hn
  | removed _ _ _ h => exact hn.removed hwf h

theorem Held.of_unlinkResult (hwf : Wf s) (hn : Held s) {path : Path} {r : ℤ}
    (h : UnlinkResult s path r s') : Held s' := by
  cases h with
  | badPath => exact hn
  | isDir => exact hn
  | removed _ _ _ h => exact hn.removed hwf h

theorem Held.of_renameResult (hwf : Wf s) (hn : Held s) {path dstPath : Path} {r : ℤ}
    (h : RenameResult c s path dstPath r s') : Held s' := by
  cases h with
  | badPath => exact hn
  | otherDir => exact hn
  | taken => exact hn
  | renamed hp _ _ hj h => exact hn.renamed hwf (path.nul_notMem_of_mem_tokens hp.mem) hj h

/-! ## Lookups after a creation -/

section Created

variable {path : Path} {mode : UInt32} {p j n : ℕ} {name : Name} {fresh : Option ℕ}

/-- Other names lead where they did. -/
theorem Created.findEntry_of_ne (hwf : Wf s) (h : Created c mode p j n name fresh s s') {d : ℕ} {u : Name}
    (hd : s.AllocDir d) (hu : 0 ∉ u) (hne : ¬ (d = p ∧ u = name)) :
    findEntry (s'.dirBlock d) u = findEntry (s.dirBlock d) u := by
  refine findEntry_congr fun k hk => ?_
  show ((s'.entry d k).named u && (s'.entry d k).valid) = ((s.entry d k).named u && (s.entry d k).valid)
  rw [h.entry hwf hd]
  split
  · next hpj =>
    obtain ⟨rfl, rfl⟩ := hpj
    have hnamed : (newDirent name mode n).named u = false := by
      rw [Bool.eq_false_iff, ne_eq, (newDirent_holds mode n).named_iff h.fits hu]
      exact fun heq => hne ⟨rfl, heq⟩
    rw [hnamed, h.slot_free, Bool.false_and, Bool.and_false]
  · rfl

/-- The new name leads to the new entry. -/
theorem Created.findEntry_self (hwf : Wf s) (h : Created c mode p j n name fresh s s') :
    findEntry (s'.dirBlock p) name = some j := by
  obtain ⟨-, hnone⟩ := child_error h.missing
  have hnamed : (newDirent name mode n).named name = true :=
    ((newDirent_holds mode n).named_iff h.fits h.fits.nul).2 rfl
  rw [findEntry, List.find?_range_eq_some, List.mem_range]
  refine ⟨?_, h.slot_lt, fun k hk => ?_⟩
  · show ((s'.entry p j).named name && (s'.entry p j).valid) = true
    rw [h.entry hwf h.parent, if_pos ⟨rfl, rfl⟩, hnamed]
    rfl
  · have hslot := h.slot_lt
    show (!((s'.entry p k).named name && (s'.entry p k).valid)) = true
    rw [h.entry hwf h.parent, if_neg (by omega)]
    by_cases hk' : (s.entry p k).named name = true
    · have hvalid : (s.entry p k).valid = false := findEntry_eq_none hnone k (by omega) hk'
      rw [hvalid, Bool.and_false]
      rfl
    · rw [Bool.eq_false_iff.2 hk', Bool.false_and]
      rfl

/-- Walks to old directories go where they went. -/
theorem Created.walk (hwf : Wf s) (h : Created c mode p j n name fresh s s') {d e : ℕ} {q : List Name}
    (hd : s.AllocDir d) (hq : ∀ u ∈ q, 0 ∉ u) (hw : s.walk d q = .inr e) : s'.walk d q = .inr e := by
  induction q generalizing d with
  | nil => exact hw
  | cons u q ih =>
    have hne : ¬ (d = p ∧ u = name) := by
      rintro ⟨rfl, rfl⟩
      rw [FS.walk, (child_error h.missing).2] at hw
      simp at hw
    rw [FS.walk] at hw ⊢
    rw [h.findEntry_of_ne hwf hd (hq u List.mem_cons_self) hne]
    split at hw
    · simp at hw
    · next k hf =>
      have he := edge_of_findEntry hd hf
      have hentry : s'.entry d k = s.entry d k := by
        rw [h.entry hwf hd, if_neg]
        rintro ⟨rfl, rfl⟩
        exact Bool.false_ne_true (h.slot_free.symm.trans he.2.2.1)
      split at hw
      · next hdir =>
        rw [hentry, if_pos hdir]
        exact ih ⟨(hwf.edge_child he).1, (hwf.edge_isDir he).symm.trans hdir⟩
          (fun u hu => hq u (List.mem_cons_of_mem _ hu)) hw
      · simp at hw

/-- The path of the call leads to the new inode. -/
theorem Created.resolve (hwf : Wf s) (hp : s.Parent path p name)
    (h : Created c mode p j n name fresh s s') : s'.resolve 1 path.tokens = .inr n := by
  have hwalk := h.walk hwf hwf.allocDir_one
    (fun u hu => path.nul_notMem_of_mem_tokens (List.mem_of_mem_dropLast hu)) hp.walk
  have hentry : (s'.entry p j).inode.toNat = n := by
    rw [h.entry hwf h.parent, if_pos ⟨rfl, rfl⟩, newDirent_inode _ _ h.inode_lt]
  rw [← List.dropLast_append_getLast? name hp.last, resolve_append, hwalk, Sum.elim_inr, child,
    h.findEntry_self hwf]
  exact congrArg Sum.inr hentry

end Created

end FS

theorem Mkfs.named_fresh {n : ℕ} (h : Formattable n) (t : UInt32) : (fresh h t).Named where
  holds := fun he => absurd he (not_edge_fresh h t)
  distinct := fun he => absurd he (not_edge_fresh h t)

end Fsx600
