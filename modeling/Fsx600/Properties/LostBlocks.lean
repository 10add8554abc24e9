import Fsx600.Spec.Recording
import Fsx600.Properties.Checker

/-!
# The blocks that the checker calls unreachable

At the end the checker lists the blocks that it has recorded and that are not marked in use:
`if (FD_ISSET(i, blkmap) && !FD_ISSET(i, block_map))`.  A block is lost if it is marked and no
reachable inode references it.  No block is both, so the list is that of the lost blocks only if
there are neither (`listsLost_iff`).

* `listsLost_treeImage`: an image with a file and a directory, where there are neither;
* `not_listsLost`: an image with nothing marked, where the block of the root is listed.
-/

namespace Fsx600

namespace ReadImg

open Checked Function

variable {im : Image} {fuel b : ℕ} {r : Survey} {lost : List ℕ}

/-! ## The list -/

variable (im) in
/-- A block of the data region, up to `num_blocks`. -/
def InData (b : ℕ) : Prop := firstData im ≤ b ∧ b < (sb im).numBlocks.toNat

variable (im) in
/-- A block that is marked in use and that no reachable inode references. -/
def Lost (b : ℕ) : Prop := InData im b ∧ marked im b = true ∧ ¬ Referenced im b

variable (im) in
/-- The list has the lost blocks. -/
def ListsLost (lost : List ℕ) : Prop := ∀ b, b ∈ lost ↔ Lost im b

/-- What `main` lists. -/
theorem mem_lost_iff (h : main im fuel = .ok (r, some lost)) (b : ℕ) :
    b ∈ lost ↔ InData im b ∧ Recorded im b ∧ marked im b = false := by
  rw [main, bind_eq_ok] at h
  obtain ⟨r', hr, h⟩ := h
  split at h
  · exact absurd (congrArg Prod.snd (Except.ok.inj h)) (by simp)
  next hlost =>
  rw [bind_eq_ok] at h
  obtain ⟨l, hl, h⟩ := h
  obtain ⟨rfl, heq⟩ := Prod.mk.inj (Except.ok.inj h)
  obtain rfl := Option.some.inj heq
  -- the loop has come to its end
  rw [survey, bind_eq_ok] at hr
  obtain ⟨_, -, hr⟩ := hr
  rw [bind_eq_ok] at hr
  obtain ⟨inodes, -, hr⟩ := hr
  rw [bind_eq_ok] at hr
  obtain ⟨blocks, -, hr⟩ := hr
  rw [bind_eq_ok] at hr
  obtain ⟨s, hstart, hr⟩ := hr
  rw [bind_eq_ok] at hr
  obtain ⟨⟨failed, t⟩, hloop, hr⟩ := hr
  cases failed with
  | true =>
    obtain rfl := Except.ok.inj hr
    exact absurd hlost (by simp)
  | false =>
    obtain ⟨lost', -, hr⟩ := bind_eq_ok.1 hr
    obtain rfl := Except.ok.inj hr
    obtain ⟨hwalked, hdone⟩ := Search.walked_of_loop (Search.walked_of_start hstart) hloop
    rw [Search.eq_of_unreachableBlocks hl, List.mem_filter, List.mem_range'_1, Bool.and_eq_true,
      Bool.not_eq_true', hwalked.blkmap_iff hdone, InData]
    exact and_congr_left fun _ => by omega

/-- **The list is right** exactly when every block that the walk has recorded is marked and every
marked block is referenced. -/
theorem listsLost_iff (h : main im fuel = .ok (r, some lost)) :
    ListsLost im lost ↔ ∀ b, InData im b →
      (Recorded im b → marked im b = true) ∧ (marked im b = true → Referenced im b) := by
  have hmem := mem_lost_iff h
  constructor
  · refine fun hlists b hb => ⟨fun hrec => ?_, fun hmark => ?_⟩
    · by_contra hfree
      have hlost := (hlists b).1 ((hmem b).2 ⟨hb, hrec, Bool.of_not_eq_true hfree⟩)
      exact hfree hlost.2.1
    · by_contra hno
      have hlisted := (hmem b).1 ((hlists b).2 ⟨hb, hmark, hno⟩)
      exact Bool.false_ne_true (hlisted.2.2.symm.trans hmark)
  · intro hcond b
    rw [hmem]
    constructor
    · rintro ⟨hb, hrec, hfree⟩
      exact absurd (hfree.symm.trans ((hcond b hb).1 hrec)) Bool.false_ne_true
    · rintro ⟨hb, hmark, hno⟩
      exact absurd ((hcond b hb).2 hmark) hno

/-! ## The list comes out -/

/-- On a plausible image that can be loaded, without an inode that is met twice, the blocks are
listed. -/
theorem main_returns (hp : Plausible im) (hl : Loaded im) (hno : ¬ MetTwice im)
    (hnum : (sb im).numBlocks.toNat ≤ im.nblks) :
    ∃ r lost, main im (regionInodes im + 1) = .ok (r, some lost) := by
  obtain ⟨r, hsurvey, ⟨-, hfin⟩ | ⟨hlost, -⟩⟩ := survey_ok hp hl
  · cases hfin with
    | failed _ _ hmet => exact absurd hmet hno
  · have hreturns : Returns (r.search.unreachableBlocks im) := by
      refine filter_returns fun b hb => ?_
      have hlt : b < im.nblks := by
        have := List.mem_range'_1.1 hb
        omega
      rw [Search.seen, if_pos (inMap hp hl hlt), ok_bind]
      split
      · have hmapped := hl.mapped
        rw [blockMapBase_eq hl, diskBit_ok hl (by omega)]
        exact returns_ok _
      · exact returns_ok _
    obtain ⟨lost, hmain⟩ := hreturns
    refine ⟨r, lost, ?_⟩
    rw [main, hsurvey _ (Nat.lt_succ_self _), ok_bind, hlost]
    dsimp only
    rw [hmain]
    rfl

/-! ## The image with a file and a directory -/

/-- A search of the three entries of the image. -/
theorem traversal_treeImage {child : Entry → ℕ → Option Entry}
    (hroot : WorkList.children child (List.range 32) ⟨true, 1⟩ = [⟨false, 2⟩, ⟨true, 3⟩])
    (ha : WorkList.children child (List.range 32) ⟨false, 2⟩ = [])
    (hb : WorkList.children child (List.range 32) ⟨true, 3⟩ = []) :
    WorkList.Traversal child (List.range 32) Entry.inum ⟨true, 1⟩ [⟨true, 1⟩, ⟨false, 2⟩, ⟨true, 3⟩] 3 := by
  have h1 : WorkList.Traversal child (List.range 32) Entry.inum ⟨true, 1⟩
      ([⟨true, 1⟩] ++ WorkList.children child (List.range 32) ⟨true, 1⟩) 1 :=
    .visit (Nat.lt_succ_self 0) .start (by simp [hroot])
  rw [hroot] at h1
  have h2 : WorkList.Traversal child (List.range 32) Entry.inum ⟨true, 1⟩
      ([⟨true, 1⟩, ⟨false, 2⟩, ⟨true, 3⟩] ++ WorkList.children child (List.range 32) ⟨false, 2⟩) 2 :=
    .visit (t := 1) (by decide) h1 (by simp [ha])
  rw [ha] at h2
  have h3 : WorkList.Traversal child (List.range 32) Entry.inum ⟨true, 1⟩
      ([⟨true, 1⟩, ⟨false, 2⟩, ⟨true, 3⟩] ++ WorkList.children child (List.range 32) ⟨true, 3⟩) 3 :=
    .visit (t := 2) (by decide) h2 (by simp [hb])
  rwa [hb] at h3

theorem not_metTwice_treeImage : ¬ MetTwice treeImage :=
  (traversal_treeImage (by decide +kernel) (by decide +kernel) (by decide +kernel)).not_metTwice List.nodup_range

theorem reachable_treeImage (e : Entry) :
    Reachable treeImage e ↔ e ∈ ([⟨true, 1⟩, ⟨false, 2⟩, ⟨true, 3⟩] : List Entry) := by
  have htrav : WorkList.Traversal (leads treeImage) (List.range 32) Entry.inum ⟨true, 1⟩
      [⟨true, 1⟩, ⟨false, 2⟩, ⟨true, 3⟩] 3 :=
    traversal_treeImage (by decide +kernel) (by decide +kernel) (by decide +kernel)
  exact htrav.mem_iff.symm

/-- Three blocks are recorded, and the same three are referenced. -/
theorem recorded_treeImage (b : ℕ) :
    (Recorded treeImage b ↔ b ∈ [4, 5, 6]) ∧ (Referenced treeImage b ↔ b ∈ [4, 5, 6]) := by
  have hnames : ([⟨true, 1⟩, ⟨false, 2⟩, ⟨true, 3⟩] : List Entry).flatMap
      (fun e => (e.names treeImage).map UInt32.toNat) = [4, 5, 6] := by
    decide +kernel
  have hblocks : ([⟨true, 1⟩, ⟨false, 2⟩, ⟨true, 3⟩] : List Entry).flatMap
      (fun e => (e.names treeImage ++ e.tables treeImage).map UInt32.toNat) = [4, 5, 6] := by
    decide +kernel
  unfold Recorded Referenced
  simp only [reachable_treeImage, ← List.mem_flatMap, hnames, hblocks, and_self]

/-- The checker comes to its end on it. -/
theorem main_treeImage : ∃ r lost, main treeImage 17 = .ok (r, some lost) := by
  have hregion : regionInodes treeImage = 16 := by decide +kernel
  obtain ⟨r, lost, hmain⟩ :=
    main_returns plausible_treeImage loaded_treeImage not_metTwice_treeImage (by decide +kernel)
  exact ⟨r, lost, by rwa [hregion] at hmain⟩

theorem listsLost_treeImage : ∃ r lost, main treeImage 17 = .ok (r, some lost) ∧ ListsLost treeImage lost := by
  obtain ⟨r, lost, hmain⟩ := main_treeImage
  refine ⟨r, lost, hmain, (listsLost_iff hmain).2 fun b hb => ?_⟩
  obtain ⟨hrec, href⟩ := recorded_treeImage b
  have hge : 4 ≤ b := le_of_eq_of_le (by decide +kernel) hb.1
  have hlt : b < 64 := lt_of_lt_of_eq hb.2 (by decide +kernel)
  have hmarked : ∀ b < 64, marked treeImage b = decide (b ≤ 6) := by decide +kernel
  rw [hrec, href, hmarked b hlt, decide_eq_true_eq]
  simp only [List.mem_cons, List.not_mem_nil, or_false]
  omega

/-! ## An image with nothing marked -/

/-- 64 blocks, nothing marked in use, and an empty root directory in block 4. -/
def unmarkedRoot : Image := sample 64 1 1 4 treeImage.nblks_lt

theorem not_metTwice_unmarkedRoot : ¬ MetTwice unmarkedRoot := by
  have hchildren : WorkList.children (listed unmarkedRoot) (List.range 32) ⟨true, 1⟩ = [] := by decide +kernel
  have htrav : Traversal unmarkedRoot
      ([⟨true, 1⟩] ++ WorkList.children (listed unmarkedRoot) (List.range 32) ⟨true, 1⟩) 1 :=
    .visit (Nat.lt_succ_self 0) .start (by simp [hchildren])
  rw [hchildren] at htrav
  exact htrav.not_metTwice List.nodup_range

/-- The block of the root is recorded. -/
theorem recorded_unmarkedRoot : Recorded unmarkedRoot 4 :=
  ⟨⟨true, 1⟩, Relation.ReflTransGen.refl, by decide +kernel⟩

theorem not_listsLost : ∃ r lost, main unmarkedRoot (regionInodes unmarkedRoot + 1) =
    .ok (r, some lost) ∧ 4 ∈ lost ∧ ¬ Lost unmarkedRoot 4 ∧ ¬ ListsLost unmarkedRoot lost := by
  have hp : Plausible unmarkedRoot :=
    plausible_sample (by decide) (by decide) (by decide) (by decide) (by decide) (by decide)
  have hl : Loaded unmarkedRoot := ⟨by decide, by decide +kernel, by decide +kernel⟩
  have hfree : marked unmarkedRoot 4 = false := by decide +kernel
  obtain ⟨r, lost, hmain⟩ := main_returns hp hl not_metTwice_unmarkedRoot (by decide +kernel)
  have hmem : 4 ∈ lost :=
    (mem_lost_iff hmain 4).2 ⟨⟨by decide +kernel, by decide +kernel⟩, recorded_unmarkedRoot, hfree⟩
  have hlost : ¬ Lost unmarkedRoot 4 := fun h => Bool.false_ne_true (hfree.symm.trans h.2.1)
  exact ⟨r, lost, hmain, hmem, hlost, fun h => hlost ((h 4).1 hmem)⟩

end ReadImg

end Fsx600
