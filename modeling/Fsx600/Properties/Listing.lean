import Fsx600.Model.Reports
import Fsx600.Properties.UniqueNames
import Fsx600.Spec.NameTree
import Fsx600.Spec.Returns

/-!
# Listing and lookup agree

`fs_readdir` goes through the slots of a directory and looks each inode up by its number;
the path walk goes by name and takes the first valid entry it finds.  In a well-formed
state whose directories hold no name twice they say the same: the names that are listed
are those that resolve, each is listed once, and with the attributes that `fs_getattr`
gives for it.
-/

namespace Fsx600

open Checked Mkfs

namespace FS

variable {g : Layout} {s : FS g} {path : Path} {p : ℕ} {n : Name}

/-- The name of every valid entry of a directory is a component of a path. -/
def NamesProper (s : FS g) : Prop :=
  ∀ d, s.AllocDir d → ∀ j < 32, (s.entry d j).valid = true → Name.IsComponent (s.entry d j).cname

instance decidableIsComponent (n : Name) : Decidable (Name.IsComponent n) :=
  decidable_of_iff (n ≠ [] ∧ 0 ∉ n ∧ 47 ∉ n)
    ⟨fun h => ⟨h.1, h.2.1, h.2.2⟩, fun h => ⟨h.ne_nil, h.nul, h.slash⟩⟩

/-! ## What is listed -/

/-- What the filler is called with for one slot. -/
def filling (s : FS g) (d j : ℕ) : Name × Stat :=
  ((s.entry d j).cname, fsSetSuperbockAttrs (s.inodes (s.entry d j).inode.toNat)
    (s.entry d j).inode.toNat)

/-- The slots for which the filler is called. -/
def listedSlots (s : FS g) (d : ℕ) : List ℕ :=
  (List.range 32).filter fun j => (s.entry d j).valid

theorem mem_listedSlots {j : ℕ} :
    j ∈ s.listedSlots p ↔ j < 32 ∧ (s.entry p j).valid = true := by
  rw [listedSlots, List.mem_filter, List.mem_range]

theorem bufferString_nameField {d : Dirent} (h : d.nameByte 27 = 0) :
    bufferString ((List.range 28).map d.nameByte) = .ok d.cname := by
  have hlt := (Dirent.bytes_of_cname h).1
  rw [bufferString, if_pos (by rw [List.length_map, List.length_range]; exact hlt)]
  rfl

theorem WellFormed.readdirLoop_eq (h : WellFormed s) (hd : s.AllocDir p) {l : List ℕ}
    (hl : ∀ j ∈ l, j < 32) : s.readdirLoop (s.dirBlock p) l =
      .ok ((l.filter fun j => (s.entry p j).valid).map (s.filling p)) := by
  induction l with
  | nil => rfl
  | cons j l ih =>
    have hj := hl j List.mem_cons_self
    rw [readdirLoop, ih fun k hk => hl k (List.mem_cons_of_mem _ hk), ← entry]
    by_cases hv : (s.entry p j).valid = true
    · have hchild := (h.edge_child ⟨hd, hj, hv, rfl⟩).1
      rw [if_pos hv, h.indexed.inode_returns hchild, ok_bind, bufferString_nameField (h.name_nul p j hd hj),
        ok_bind, ok_bind, List.filter_cons, if_pos hv, List.map_cons]
      rfl
    · rw [if_neg hv, List.filter_cons, if_neg hv]

/-- `fs_readdir` on a directory. -/
theorem WellFormed.fsReaddir_eq (h : WellFormed s) (hlen : path.tokens.length ≤ 63)
    (hr : s.resolve 1 path.tokens = .inr p) (hdir : s.isDir p = true) :
    s.fsReaddir path = .ok (0, (s.listedSlots p).map (s.filling p)) := by
  have halloc := h.alloc_of_resolve hr
  obtain ⟨o, ho⟩ := h.indexed.fsGetattr_returns hlen
  rw [fsReaddir, ho, ok_bind]
  rcases fsGetattr_ok ho with ⟨e, he, -⟩ | ⟨i, hi, rfl⟩
  · exact absurd (he.symm.trans hr) (by simp)
  obtain rfl := Sum.inr.inj (hi.symm.trans hr)
  dsimp only [fsSetSuperbockAttrs]
  rw [h.indexed.inode_returns halloc, ok_bind, if_neg (by simpa [isDir] using hdir),
    h.readBlock_inUse (h.dirBlock_inUse ⟨halloc, hdir⟩), ok_bind, ← dirBlock,
    h.readdirLoop_eq ⟨halloc, hdir⟩ fun j hj => List.mem_range.mp hj]
  rfl

/-! ## What is looked up -/

/-- A lookup finds the entry whose string is the name. -/
theorem NamesUnique.child_iff (hu : s.NamesUnique) (h : Wf s) (hd : s.AllocDir p) (hn : 0 ∉ n)
    {i : ℕ} : s.child p n = .inr i ↔
      ∃ j ∈ s.listedSlots p, (s.entry p j).cname = n ∧ (s.entry p j).inode.toNat = i := by
  constructor
  · intro hc
    obtain ⟨j, hf, hi⟩ := child_inode hc
    obtain ⟨hj, hnamed, hv, -⟩ := findEntry_eq_some hf
    exact ⟨j, mem_listedSlots.2 ⟨hj, hv⟩,
      (Dirent.named_iff_cname (h.name_nul p j hd hj) hn).1 hnamed, hi⟩
  · rintro ⟨j, hj, rfl, rfl⟩
    obtain ⟨hj, hv⟩ := mem_listedSlots.1 hj
    have hnamed := (Dirent.named_iff_cname (h.name_nul p j hd hj) hn).2 rfl
    rw [child]
    cases hf : findEntry (s.dirBlock p) (s.entry p j).cname with
    | none => exact absurd (hv.symm.trans (findEntry_eq_none hf j hj hnamed)) (by simp)
    | some k =>
      obtain ⟨hk, hnamed', hv', -⟩ := findEntry_eq_some hf
      have hcname := (Dirent.named_iff_cname (h.name_nul p k hd hk) hn).1 hnamed'
      obtain rfl := hu p hd k hk j hj hv' hv hcname
      rfl

/-- **Listing and lookup agree.** -/
theorem fsReaddir_agrees (h : WellFormed s) (hu : s.NamesUnique) (hp : s.NamesProper) (path : Path)
    (hlen : path.tokens.length ≤ 62) (d : ℕ) (hd : s.translatePathToInum path = .ok (d : ℤ))
    (hdir : s.isDir d = true) : ∃ filled,
      s.fsReaddir path = .ok (0, filled) ∧ (filled.map Prod.fst).Nodup ∧
      (∀ n (hn : Name.IsComponent n), n ∈ filled.map Prod.fst ↔
        ∃ i : ℕ, s.translatePathToInum (path.slash n hn.nul) = .ok (i : ℤ)) ∧
      ∀ n sb, (n, sb) ∈ filled →
        ∃ hn : Name.IsComponent n, s.fsGetattr (path.slash n hn.nul) = .ok (.inr sb) := by
  have hr := resolve_of_translate hd
  have hdd : s.AllocDir d := ⟨h.alloc_of_resolve hr, hdir⟩
  have hslash : ∀ n (hn : Name.IsComponent n), (path.slash n hn.nul).tokens.length ≤ 63 := fun n hn => by
    rw [path.tokens_slash hn, List.length_append, List.length_singleton]
    omega
  refine ⟨_, h.fsReaddir_eq (by omega) hr hdir, ?_, fun n hn => ?_, fun n sb hmem => ?_⟩
  · rw [List.map_map]
    refine List.Nodup.map_on (fun j hj k hk heq => ?_) (List.nodup_range.filter _)
    obtain ⟨hj, hv⟩ := mem_listedSlots.1 hj
    obtain ⟨hk, hv'⟩ := mem_listedSlots.1 hk
    exact hu d hdd j hj k hk hv hv' heq
  · simp only [h.indexed.translate_iff, (h.parent_slash hn hr hdir).resolve, hu.child_iff h.toWf hdd hn.nul,
      List.map_map, List.mem_map, Function.comp_apply, filling]
    constructor
    · rintro ⟨j, hj, hname⟩
      exact ⟨_, j, hj, hname, rfl⟩
    · rintro ⟨i, j, hj, hname, -⟩
      exact ⟨j, hj, hname⟩
  · obtain ⟨j, hj, hfill⟩ := List.mem_map.mp hmem
    obtain ⟨rfl, rfl⟩ := Prod.mk.inj hfill
    obtain ⟨hj', hv⟩ := mem_listedSlots.1 hj
    have hn := hp d hdd j hj' hv
    refine ⟨hn, ?_⟩
    obtain ⟨o, ho⟩ := h.indexed.fsGetattr_returns (hslash _ hn)
    have hres := (h.parent_slash hn hr hdir).resolve.trans
      ((hu.child_iff h.toWf hdd hn.nul).2 ⟨j, hj, rfl, rfl⟩)
    rw [ho]
    rcases fsGetattr_ok ho with ⟨e, he, -⟩ | ⟨i, hi, rfl⟩
    · exact absurd (he.symm.trans hres) (by simp)
    · rw [Sum.inr.inj (hi.symm.trans hres)]

/-- The directory `/a` after `mkdir /a` and `mknod /a/b`. -/
theorem fsReaddir_agrees_file : ∃ s filled,
    (fresh formattable_256 0).execAll ⟨1000, 1000, 0⟩ [.mkdir pathA 0x1ED, .mknod pathAB 0x81A4] =
      .ok s ∧
    s.fsReaddir pathA = .ok (0, filled) ∧ [98] ∈ filled.map Prod.fst ∧ [97] ∉ filled.map Prod.fst := by
  have hend : endsIn (fun s => decide (s.resolve 1 pathA.tokens = .inr 2) && s.isDir 2 &&
      decide (s.resolve 1 pathAB.tokens = .inr 3) && decide (s.child 2 [97] = .inl (-ENOENT)) &&
      (List.range 64).all fun d => !(s.inodeMap d && s.isDir d) || (List.range 32).all fun j =>
        !(s.entry d j).valid || decide (Name.IsComponent (s.entry d j).cname))
      ((fresh formattable_256 0).execAll ⟨1000, 1000, 0⟩
        [.mkdir pathA 0x1ED, .mknod pathAB 0x81A4]) = true := by
    decide +kernel
  obtain ⟨s, hs, ht⟩ := exists_of_endsIn hend
  simp only [Bool.and_eq_true, decide_eq_true_iff, List.all_eq_true, Bool.or_eq_true,
    Bool.not_eq_true', List.mem_range] at ht
  obtain ⟨⟨⟨⟨hres, hdir⟩, hfile⟩, hnone⟩, hnames⟩ := ht
  have hrun : GuardedRun.Run Step NamesGuard (fresh formattable_256 0) s :=
    run_of_execAll hs fun u a ha => by
      simp only [List.mem_cons, List.not_mem_nil, or_false] at ha
      rcases ha with rfl | rfl
      · exact ⟨trivial, fun _ _ h => Call.noConfusion h⟩
      · exact ⟨trivial, fun _ _ h => Call.noConfusion h⟩
  obtain ⟨hwf, hnamed⟩ := named_of_run formattable_256 0 hrun
  have hwell : WellFormed s := ⟨hwf, by decide⟩
  have hproper : s.NamesProper := fun d hd j hj hv => by
    rcases hnames d (hwf.lt_of_alloc hd.1) with hno | hyes
    · exact absurd hno (by simp [hd.1, hd.2])
    · exact (hyes j hj).resolve_left (by simp [hv])
  have hlen : pathA.tokens.length ≤ 62 := by decide +kernel
  obtain ⟨filled, hfilled, -, hiff, -⟩ := fsReaddir_agrees hwell hnamed.namesUnique hproper pathA hlen 2
    (hwell.indexed.translate_iff.2 hres) hdir
  have hb : Name.IsComponent [98] := by decide
  have ha : Name.IsComponent [97] := by decide
  refine ⟨s, filled, hs, hfilled, (hiff _ hb).2 ⟨3, ?_⟩, fun hmem => ?_⟩
  · exact hwell.indexed.translate_iff.2 hfile
  · obtain ⟨i, hi⟩ := (hiff _ ha).1 hmem
    have hr := (hwf.parent_slash ha hres hdir).resolve.symm.trans (resolve_of_translate hi)
    exact absurd (hnone.symm.trans hr) (by simp)

end FS

end Fsx600
