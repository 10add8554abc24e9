import Fsx600.Properties.SafeRuns
import Fsx600.Properties.Verdict

/-!
# The checker accepts what the file system writes

`read-img` on the image under a mounted file system that is well formed and synchronised.  What
it addresses in the image is what `main.c` has in memory: the inode table, the two maps and the
directory blocks.  So its walk is the walk over the edges of the tree: the entries that it gets to
are the allocated inodes, each with its type (`Good`), and every pointer that it follows is that of
a block in use.

Hence it comes to its end on every image that a run of safe calls leaves, is silent about it, and
has met exactly the inodes of the tree.
-/

namespace Fsx600

namespace FS

open Checked Function ReadImg

variable {g : Layout} {s : FS g} {e x : Entry} {i j b : ℕ}

/-- The checker can load the image and has room for its walk. -/
structure Fit (s : FS g) : Prop extends s.Synced where
  describes : g.Describes s.image
  bounded : ReadImg.Bounded s.image
  loaded : ReadImg.Loaded s.image
  blocks_le : (sb s.image).numBlocks.toNat ≤ g.nblks

section Fit

variable (h : s.Fit)
include h

theorem Fit.regionInodes : regionInodes s.image = g.numInodes :=
  congrArg (16 * ·) h.describes.inodeRegSz

theorem Fit.numInodes : ReadImg.numInodes s.image = g.numInodes :=
  (numInodes_eq h.bounded h.loaded).trans h.regionInodes

theorem Fit.regionInode (hi : i < g.numInodes) : regionInode s.image i = s.inodes i := by
  have himap : inodeMapSz s.image = g.inodeMapSz := h.describes.inodeMapSz
  have hbmap : blockMapSz s.image = g.blockMapSz := h.describes.blockMapSz
  rw [ReadImg.regionInode, himap, hbmap]
  exact inodesSynced_iff.1 h.inodes i hi

theorem Fit.inodeAtBase (hi : i < g.numInodes) : inodeAtBase s.image i = s.inodes i :=
  (inodeAtBase_eq h.loaded i).trans (h.regionInode hi)

theorem Fit.inUse (hi : i < g.inodeBits) : inUse s.image i = s.inodeMap i :=
  inodeMapSynced_iff.1 h.inodeMap i hi

theorem Fit.marked (hb : b < g.blockBits) : marked s.image b = s.blockMap b := by
  have himap : inodeMapSz s.image = g.inodeMapSz := h.describes.inodeMapSz
  rw [ReadImg.marked, blockMapBase_eq h.loaded, himap]
  exact blockMapSynced_iff.1 h.blockMap b hb

end Fit

/-! ## The pointers of a file -/

theorem mem_words {p : UInt32} {blk : Block} : p ∈ words blk ↔ ∃ k < 256, blk.word k = p := by
  rw [words, List.mem_map]
  simp only [List.mem_range]

/-- The words of the blocks of pointers are pointers in slots. -/
theorem Wf.pointersInside (hwf : Wf s) (hi : s.inodeMap i = true) (hf : s.isDir i = false) :
    PointersInside s.image (s.inodes i) := by
  have hlt := hwf.pointer_lt hi hf
  refine ⟨fun k => ?_, hlt .indir1, fun h0 k _ => ?_, hlt .indir2, fun h0 k _ => ?_,
    fun h0 m _ hm k _ => ?_⟩
  · have hk := hlt (.direct k)
    rwa [FS.pointer, Inode.pointer, Inode.directAt, dif_pos k.isLt] at hk
  · have hk := hlt (.level1 k)
    rwa [FS.pointer, Inode.pointer, tableWord_of_ne_zero h0] at hk
  · have hk := hlt (.outer k)
    rwa [FS.pointer, Inode.pointer, tableWord_of_ne_zero h0] at hk
  · have hm : (s.disk (s.inodes i).indir2.toNat).word m ≠ 0 := hm
    have hk := hlt (.inner m k)
    rwa [FS.pointer, Inode.pointer, tableWord_of_ne_zero h0, tableWord_of_ne_zero hm] at hk

/-- The checker's pointers of a file are those of its slots. -/
theorem Fit.slot_of_dataPointers (h : s.Fit) (hwf : Wf s) (hi : s.inodeMap i = true)
    (hf : s.isDir i = false) {p : UInt32} (hp : p ∈ dataPointers s.image (s.inodes i)) :
    ∃ σ, s.pointer i σ = p := by
  have hlt := hwf.pointer_lt hi hf
  have hsize := h.loaded.size_lt
  have hnblks : s.image.nblks = g.nblks := rfl
  have hblock : ∀ σ, ReadImg.blockAt s.image (s.pointer i σ) = s.disk (s.pointer i σ).toNat :=
    fun σ => blockAt_of_lt (by have := hlt σ; omega)
  rw [dataPointers, List.mem_append, List.mem_append] at hp
  rcases hp with hp | hp | hp
  · obtain ⟨k, rfl⟩ := (List.mem_ofFn' _ _).1 hp
    exact ⟨.direct k, dif_pos k.isLt⟩
  · split at hp
    · exact absurd hp List.not_mem_nil
    · next h0 =>
      rw [show ReadImg.blockAt s.image (s.inodes i).indir1 = _ from hblock .indir1] at hp
      obtain ⟨k, -, rfl⟩ := mem_words.1 hp
      exact ⟨.level1 k, tableWord_of_ne_zero h0 k⟩
  · split at hp
    · exact absurd hp List.not_mem_nil
    · next h0 =>
      obtain ⟨q, hq, hp⟩ := List.mem_flatMap.1 hp
      rw [show ReadImg.blockAt s.image (s.inodes i).indir2 = _ from hblock .indir2] at hq
      obtain ⟨m, -, rfl⟩ := mem_words.1 hq
      have hq : s.pointer i (.outer m) = (s.disk (s.inodes i).indir2.toNat).word m :=
        tableWord_of_ne_zero h0 m
      split at hp
      · exact absurd hp List.not_mem_nil
      · next hm =>
        rw [show ReadImg.blockAt s.image _ = _ from hq ▸ hblock (.outer m)] at hp
        obtain ⟨k, -, rfl⟩ := mem_words.1 hp
        have hm : (s.disk (s.inodes i).indir2.toNat).word m ≠ 0 := hm
        refine ⟨.inner m k, ?_⟩
        rw [FS.pointer, Inode.pointer, tableWord_of_ne_zero h0, tableWord_of_ne_zero hm]

/-! ## The walk -/

/-- An entry for a node of the tree, with its type. -/
def Good (s : FS g) (e : Entry) : Prop := s.Node e.inum ∧ e.dir = s.isDir e.inum

/-- Slot `j` of a node, as an entry. -/
def kid (s : FS g) (e : Entry) (j : ℕ) : Option Entry :=
  if s.isDir e.inum = true ∧ (s.entry e.inum j).valid = true then
    some ⟨(s.entry e.inum j).isDir, (s.entry e.inum j).inode.toNat⟩
  else none

theorem good_root (hwf : Wf s) : s.Good ⟨true, 1⟩ := ⟨⟨hwf.bit_one, by decide⟩, hwf.root_isDir.symm⟩

/-- The entries of a node are the edges from it. -/
theorem kid_eq_some_iff (hwf : Wf s) (he : s.Good e) (hj : j < 32) :
    s.kid e j = some x ↔ s.Edge e.inum j x.inum ∧ x.dir = s.isDir x.inum := by
  unfold kid
  constructor
  · intro hx
    split_ifs at hx with hv
    obtain rfl := Option.some.inj hx
    have hedge : s.Edge e.inum j _ := ⟨⟨he.1.1, hv.1⟩, hj, hv.2, rfl⟩
    exact ⟨hedge, hwf.edge_isDir hedge⟩
  · rintro ⟨hedge, hdir⟩
    rw [if_pos ⟨hedge.1.2, hedge.2.2.1⟩, hwf.edge_isDir hedge, hedge.2.2.2, ← hdir]

theorem good_of_kid (hwf : Wf s) (he : s.Good e) (hj : j < 32) (hx : s.kid e j = some x) : s.Good x := by
  obtain ⟨hedge, hdir⟩ := (kid_eq_some_iff hwf he hj).1 hx
  obtain ⟨halloc, hge, -⟩ := hwf.edge_child hedge
  exact ⟨⟨halloc, by omega⟩, hdir⟩

theorem good_of_children (hwf : Wf s) (he : s.Good e)
    (hx : x ∈ WorkList.children s.kid (List.range 32) e) : s.Good x := by
  obtain ⟨j, hj, hx⟩ := List.mem_filterMap.1 hx
  exact good_of_kid hwf he (List.mem_range.1 hj) hx

section Walk

variable (h : s.Fit) (hs : Indexed s)
include h hs

theorem Fit.inside (he : s.Good e) : e.Inside s.image := by
  have hino := h.regionInode (hs.inode_lt _ he.1.1)
  refine ⟨fun hdir _ => ?_, fun hdir => ?_⟩
  · have huse := hs.toWf.dirBlock_inUse ⟨he.1.1, he.2.symm.trans hdir⟩
    rw [hino]
    exact huse.2.1.trans_le hs.numBlocks_le_nblks
  · rw [hino]
    exact hs.toWf.pointersInside he.1.1 (he.2.symm.trans hdir)

theorem Fit.listed_eq (he : s.Good e) (hj : j < 32) : listed s.image e j = s.kid e j := by
  have hino := h.regionInode (hs.inode_lt _ he.1.1)
  have hexp : e.dir = true ∧ sIsDir (ReadImg.regionInode s.image e.inum).mode = true ↔
      s.isDir e.inum = true := by
    rw [hino, he.2]
    exact and_self_iff
  unfold listed kid target
  by_cases hdir : s.isDir e.inum = true
  · rw [if_pos (hexp.2 hdir), hino, h.regionInodes]
    refine if_congr ⟨fun hv => ⟨hdir, hv.1⟩, fun hv => ⟨hv.2, ?_⟩⟩ rfl rfl
    have hedge : s.Edge e.inum j _ := ⟨⟨he.1.1, hdir⟩, hj, hv.2, rfl⟩
    exact hs.inode_lt _ (hs.toWf.edge_child hedge).1
  · rw [if_neg (mt hexp.1 hdir), if_neg fun hv => hdir hv.1]

theorem Fit.leads_eq (he : s.Good e) (hj : j < 32) : leads s.image e j = s.kid e j := by
  rw [← h.listed_eq hs he hj]
  have hlt := h.loaded.size_lt
  unfold leads listed
  refine ite_congr ?_ (fun hexp => ?_) fun _ => rfl
  · rw [Expanded, inodeAtBase_eq h.loaded]
  · have hin : ((ReadImg.regionInode s.image e.inum).directAt 0).toNat < s.image.nblks :=
      (h.inside hs he).dir hexp.1 hexp.2
    unfold entryTarget target
    rw [inodeAtBase_eq h.loaded, blockAt_of_lt (by omega), numInodes_eq h.bounded h.loaded]

theorem Fit.children_leads (he : s.Good e) : WorkList.children (leads s.image) (List.range 32) e =
    WorkList.children s.kid (List.range 32) e :=
  List.filterMap_congr fun _ hj => h.leads_eq hs he (List.mem_range.1 hj)

theorem Fit.children_listed (he : s.Good e) : WorkList.children (listed s.image) (List.range 32) e =
    WorkList.children s.kid (List.range 32) e :=
  List.filterMap_congr fun _ hj => h.listed_eq hs he (List.mem_range.1 hj)

/-- What the walk gets to are nodes of the tree. -/
theorem Fit.good_of_reachable (he : Reachable s.image e) : s.Good e :=
  (WorkList.reachable_congr (good_root hs.toWf) (fun _ => h.children_leads hs)
    (fun _ _ => good_of_children hs.toWf) he).2

theorem Fit.good_of_listed (he : WorkList.Reachable (listed s.image) (List.range 32) ⟨true, 1⟩ e) :
    s.Good e :=
  (WorkList.reachable_congr (good_root hs.toWf) (fun _ => h.children_listed hs)
    (fun _ _ => good_of_children hs.toWf) he).2

/-- The walk follows the edges of the tree. -/
theorem Fit.reachable_of_edge {d c : ℕ} (hd : Reachable s.image ⟨s.isDir d, d⟩) (hedge : s.Edge d j c) :
    Reachable s.image ⟨s.isDir c, c⟩ := by
  have hgood := h.good_of_reachable hs hd
  have hj := hedge.2.1
  refine Relation.ReflTransGen.tail hd (List.mem_filterMap.2 ⟨j, List.mem_range.2 hj, ?_⟩)
  rw [h.leads_eq hs hgood hj]
  exact (kid_eq_some_iff hs.toWf hgood hj).2 ⟨hedge, rfl⟩

/-- **The walk gets to every node.** -/
theorem Fit.reachable_of_node (hi : s.Node i) : Reachable s.image ⟨s.isDir i, i⟩ := by
  have hwf := hs.toWf
  have hroot : Reachable s.image ⟨s.isDir 1, 1⟩ := by
    rw [hwf.root_isDir]
    exact Relation.ReflTransGen.refl
  have hdirs : ∀ d, s.AllocDir d → Reachable s.image ⟨s.isDir d, d⟩ := by
    intro d hd
    induction hwf.reachable d hd with
    | refl => exact hroot
    | tail _ hstep ih =>
      obtain ⟨k, hk⟩ := hstep
      exact h.reachable_of_edge hs (ih hk.1) hk
  rcases eq_or_ne i 1 with rfl | hne
  · exact hroot
  · obtain ⟨⟨d, k⟩, hk, -⟩ := hwf.named_once i (by have := hi.2; omega) hi.1
    exact h.reachable_of_edge hs (hdirs d hk.1) hk

theorem Fit.exists_reachable_iff : (∃ e, Reachable s.image e ∧ e.inum = i) ↔ s.Node i := by
  constructor
  · rintro ⟨e, he, rfl⟩
    exact (h.good_of_reachable hs he).1
  · exact fun hi => ⟨_, h.reachable_of_node hs hi, rfl⟩

/-- A place where the walk meets an inode is the entry that names it. -/
theorem Fit.edge_of_meets {p : Entry × ℕ} {k : ℕ}
    (hp : WorkList.Meets (leads s.image) (List.range 32) Entry.inum ⟨true, 1⟩ p k) :
    s.Good p.1 ∧ s.Edge p.1.inum p.2 k := by
  obtain ⟨hr, hj, y, hy, rfl⟩ := hp
  have hgood := h.good_of_reachable hs hr
  have hj := List.mem_range.1 hj
  rw [Option.mem_def, h.leads_eq hs hgood hj] at hy
  exact ⟨hgood, ((kid_eq_some_iff hs.toWf hgood hj).1 hy).1⟩

/-- **No inode is met twice.** -/
theorem Fit.not_metTwice :
    ¬ WorkList.MetTwice (leads s.image) (List.range 32) Entry.inum ⟨true, 1⟩ := by
  have hwf := hs.toWf
  rintro (⟨p, hp⟩ | ⟨p, p', k, hne, hp, hp'⟩)
  · obtain ⟨-, hedge⟩ := h.edge_of_meets hs hp
    exact absurd (hwf.edge_child hedge).2.1 (by decide)
  · obtain ⟨hgood, hedge⟩ := h.edge_of_meets hs hp
    obtain ⟨hgood', hedge'⟩ := h.edge_of_meets hs hp'
    obtain ⟨halloc, hge, -⟩ := hwf.edge_child hedge
    have hsame : (p.1.inum, p.2) = (p'.1.inum, p'.2) := (hwf.named_once k hge halloc).unique hedge hedge'
    obtain ⟨hinum, hslot⟩ := Prod.mk.inj hsame
    refine hne (Prod.ext ?_ hslot)
    have hdir : p.1.dir = p'.1.dir := by rw [hgood.2, hgood'.2, hinum]
    obtain ⟨⟨d, n⟩, j⟩ := p
    obtain ⟨⟨d', n'⟩, j'⟩ := p'
    exact (Entry.mk.injEq ..).symm ▸ ⟨hdir, hinum⟩

/-- What an entry that the walk gets to names is in use. -/
theorem Fit.inUse_of_names (he : s.Good e) {p : UInt32} (hp : p ∈ e.names s.image) : s.InUse p.toNat := by
  have hwf := hs.toWf
  have hino := h.inodeAtBase (hs.inode_lt _ he.1.1)
  unfold Entry.names at hp
  rw [hino] at hp
  cases hdir : e.dir with
  | true =>
    have hd : s.isDir e.inum = true := he.2.symm.trans hdir
    rw [hdir, if_pos rfl, if_pos (show sIsDir (s.inodes e.inum).mode = true from hd), List.mem_singleton] at hp
    rw [hp]
    exact hwf.dirBlock_inUse ⟨he.1.1, hd⟩
  | false =>
    have hf : s.isDir e.inum = false := he.2.symm.trans hdir
    rw [hdir, if_neg Bool.false_ne_true, List.mem_filter, decide_eq_true_eq] at hp
    obtain ⟨σ, rfl⟩ := h.slot_of_dataPointers hwf he.1.1 hf hp.1
    exact hwf.sound.used (owner_of_pointer he.1.1 hf hp.2)

/-- The block of a directory, where the checker looks for it. -/
theorem Fit.dirBlock {d : ℕ} (hd : s.AllocDir d) :
    ReadImg.blockAt s.image ((ReadImg.inodeAtBase s.image d).directAt 0) = s.dirBlock d := by
  have huse := hs.toWf.dirBlock_inUse hd
  have hle := hs.numBlocks_le_nblks
  have hlt := h.loaded.size_lt
  have hnblks : s.image.nblks = g.nblks := rfl
  have hb := huse.2.1
  rw [h.inodeAtBase (hs.inode_lt _ hd.1), blockAt_of_lt (by omega)]
  rfl

/-- **The image is consistent.** -/
theorem Fit.consistent : Consistent s.image := by
  have hwf := hs.toWf
  refine ⟨h.not_metTwice hs, fun e he hdir => ?_, fun e he p hp => ?_, fun d hd => ?_, fun i h1 hlt huse => ?_⟩
  · have hgood := h.good_of_reachable hs he
    rw [h.inodeAtBase (hs.inode_lt _ hgood.1.1)]
    exact hgood.2.symm.trans hdir
  · have huse := h.inUse_of_names hs (h.good_of_reachable hs he) hp
    rw [h.marked (huse.2.1.trans_le hwf.numBlocks_le_bits)]
    exact huse.2.2
  · obtain ⟨e, he, hexp, hmem, hv⟩ := hd
    obtain ⟨j, hj, rfl⟩ := List.mem_map.1 hmem
    rw [List.mem_range] at hj
    have hgood := h.good_of_reachable hs he
    have hdir : s.AllocDir e.inum := ⟨hgood.1.1, hgood.2.symm.trans hexp.1⟩
    rw [h.dirBlock hs hdir] at hv ⊢
    have hedge : s.Edge e.inum j _ := ⟨hdir, hj, hv, rfl⟩
    obtain ⟨halloc, -, hle⟩ := hwf.edge_child hedge
    refine ⟨h.numInodes ▸ hs.inode_lt _ halloc, ?_⟩
    show ReadImg.inUse s.image (s.entry e.inum j).inode.toNat = true
    rw [h.inUse (lt_of_le_of_lt hle hwf.bits_ge)]
    exact halloc
  · have hle : ReadImg.regionInodes s.image ≤ 8192 * inodeMapSz s.image := h.bounded.le_bits
    rw [h.regionInodes, show inodeMapSz s.image = g.inodeMapSz from h.describes.inodeMapSz] at hle
    rw [h.numInodes] at hlt
    rw [h.inUse (hlt.trans_le hle)] at huse
    exact (h.exists_reachable_iff hs).2 ⟨huse, by omega⟩

end Walk

/-! ## The program -/

theorem unreachableBlocks_returns (h : s.Fit) (v : Search) :
    Returns (v.unreachableBlocks s.image) := by
  refine filter_returns fun b hb => ?_
  have hnblks : s.image.nblks = g.nblks := rfl
  have hle := h.blocks_le
  have hlt : b < s.image.nblks := by
    have := List.mem_range'_1.1 hb
    omega
  rw [Search.seen, if_pos (h.bounded.inMap h.loaded hlt), ok_bind]
  split
  · have hmapped := h.loaded.mapped
    rw [blockMapBase_eq h.loaded, diskBit_ok h.loaded (by omega)]
    exact returns_ok _
  · exact returns_ok _

theorem Fit.main_returns (h : s.Fit) (hs : Indexed s) {fuel : ℕ}
    (hfuel : ReadImg.regionInodes s.image < fuel) : Returns (ReadImg.main s.image fuel) := by
  obtain ⟨r, hsurvey, ⟨hlost, -⟩ | ⟨hlost, -⟩⟩ := survey_of_inside h.bounded h.loaded fun e he =>
    h.inside hs (h.good_of_listed hs he)
  · refine ⟨(r, none), ?_⟩
    rw [ReadImg.main, hsurvey fuel hfuel, ok_bind, hlost]
    rfl
  · obtain ⟨lost, hmain⟩ := unreachableBlocks_returns h r.search
    refine ⟨(r, some lost), ?_⟩
    rw [ReadImg.main, hsurvey fuel hfuel, ok_bind, hlost]
    dsimp only
    rw [hmain]
    rfl

/-- What the checker says about a volume: nothing, and its walk has been to the nodes of the tree. -/
structure Accepted (s : FS g) (r : Survey) (lost : Option (List ℕ)) : Prop where
  silent : Silent r lost
  entries : ∀ e, e ∈ r.search.list ↔ s.Node e.inum ∧ e.dir = s.isDir e.inum
  met : ∀ i, r.search.imap i = true ↔ s.Node i
  /-- A block that it has seen is in use. -/
  seen : ∀ b, r.search.blkmap b = true → s.InUse b

theorem Fit.accepted (h : s.Fit) (hs : Indexed s) {fuel : ℕ} {r : Survey} {lost : Option (List ℕ)}
    (hmain : ReadImg.main s.image fuel = .ok (r, lost)) : s.Accepted r lost := by
  have hsilent := (silent_iff_consistent hmain).2 (h.consistent hs)
  rcases main_cases hmain with ⟨-, rfl, -⟩ | ⟨hwalked, hdone, hlogged, -⟩
  · exact absurd hsilent.blocks (by simp)
  have hrep := reports_of_walked hwalked hdone hlogged
  refine ⟨hsilent, fun e => ?_, fun i => ?_, fun b hb => ?_⟩
  · rw [hrep.mem_list]
    refine ⟨h.good_of_reachable hs, fun ⟨hi, hdir⟩ => ?_⟩
    have he := h.reachable_of_node hs hi
    rwa [← hdir] at he
  · rw [hwalked.marks.marked, List.mem_map, ← h.exists_reachable_iff hs]
    exact exists_congr fun e => and_congr_left fun _ => hrep.mem_list e
  · obtain ⟨e, he, hmem⟩ := (hwalked.blkmap_iff hdone b).1 hb
    obtain ⟨p, hp, rfl⟩ := List.mem_map.1 hmem
    exact h.inUse_of_names hs (h.good_of_reachable hs he) hp

/-! ## Runs -/

/-- The checker's bounds come from the superblock and the size of the image. -/
theorem fit_of_disk {n : ℕ} (h : Mkfs.Formattable n) (hdvd : 64 ∣ n) (t : UInt32)
    {s : FS (Mkfs.layout h)} (hsync : s.Synced) (h0 : s.disk 0 = (Mkfs.fresh h t).disk 0) : s.Fit where
  toSynced := hsync
  describes := describes_of_disk (s := Mkfs.fresh h t) (Mkfs.describes h t) h0
  bounded := by
    have hb := (plausible_formatted h hdvd t).bounded
    have hsb : sb s.image = sb (Mkfs.formatted h t) := congrArg Super.ofBlock h0
    have hregion : regionInodes s.image = regionInodes (Mkfs.formatted h t) := by
      rw [regionInodes, regionInodes, inodeRegionSz, inodeRegionSz, hsb]
    have himap : inodeMapSz s.image = inodeMapSz (Mkfs.formatted h t) := by
      rw [inodeMapSz, inodeMapSz, hsb]
    exact ⟨hdvd, hregion ▸ hb.two_le, hregion ▸ hb.le_nblks, by rw [hregion, himap]; exact hb.le_bits⟩
  loaded := by
    have hl := loaded_formatted h t
    have hsb : sb s.image = sb (Mkfs.formatted h t) := congrArg Super.ofBlock h0
    have himap : inodeMapSz s.image = inodeMapSz (Mkfs.formatted h t) := by
      rw [inodeMapSz, inodeMapSz, hsb]
    have hbmap : blockMapSz s.image = blockMapSz (Mkfs.formatted h t) := by
      rw [blockMapSz, blockMapSz, hsb]
    have hregion : inodeRegionSz s.image = inodeRegionSz (Mkfs.formatted h t) := by
      rw [inodeRegionSz, inodeRegionSz, hsb]
    refine ⟨hl.size_lt, ?_, ?_⟩
    · rw [himap, hbmap, hregion]
      exact hl.regions_le
    · rw [himap]
      exact hl.mapped
  blocks_le := by
    have hsb : sb s.image = Mkfs.super n := by
      refine (congrArg Super.ofBlock h0).trans ?_
      exact Super.ofBlock_block (Mkfs.super n)
    rw [hsb]
    exact (Mkfs.toNat_ofNat_of_le h le_rfl).le

/-- The checker on the image of a steady state. -/
theorem Steady.accepted {n : ℕ} {h : Mkfs.Formattable n} (hdvd : 64 ∣ n) {t : UInt32} {s : FS (Mkfs.layout h)}
    (hs : Steady (Mkfs.fresh h t) s) {fuel : ℕ} (hfuel : (Mkfs.layout h).numInodes < fuel) :
    ∃ r lost, ReadImg.main s.image fuel = .ok (r, lost) ∧ s.Accepted r lost := by
  have hfit := fit_of_disk h hdvd t hs.synced hs.superblock
  rw [← hfit.regionInodes] at hfuel
  obtain ⟨⟨r, lost⟩, hmain⟩ := hfit.main_returns hs.indexed hfuel
  exact ⟨r, lost, hmain, hfit.accepted hs.indexed hmain⟩

/-- **The checker accepts what the file system writes.**  After every run of safe calls on a new
image of a multiple of 64 blocks, the checker comes to its end on the image, within as many
iterations as the image has inodes; it prints no error and lists nothing as unreachable; and the
inodes that it has been to, and the types it takes them for, are those of the tree. -/
theorem accepted_of_run {n : ℕ} (h : Mkfs.Formattable n) (hdvd : 64 ∣ n) (t : UInt32)
    (calls : List (Context × Call)) (codes : List ℤ) (s : FS (Mkfs.layout h))
    (hsafe : (Mkfs.fresh h t).AllSafe calls) (hrun : (Mkfs.fresh h t).runCalls calls = .ok (codes, s))
    (fuel : ℕ) (hfuel : (Mkfs.layout h).numInodes < fuel) :
    ∃ r lost, ReadImg.main s.image fuel = .ok (r, lost) ∧ s.Accepted r lost :=
  ((steady_fresh h t).run hsafe hrun).accepted hdvd hfuel

theorem accepted_sampleCalls : ∃ s r lost,
    (Mkfs.fresh Mkfs.formattable_256 0).runCalls sampleCalls = .ok ([0, 0, 2000], s) ∧
      ReadImg.main s.image 65 = .ok (r, lost) ∧ s.Accepted r lost := by
  obtain ⟨s, hs⟩ := sampleCalls_return
  obtain ⟨r, lost, hmain, haccepted⟩ := accepted_of_run Mkfs.formattable_256 (by decide) 0 sampleCalls _ s
    allSafe_sampleCalls hs 65 (by decide)
  exact ⟨s, r, lost, hs, hmain, haccepted⟩

end FS

end Fsx600
