import Fsx600.Spec.Fresh
import Fsx600.Model.Calls

/-!
# The two walkers agree

`translate_path_to_inum` and `get_parent_inum` each have a walk of their own, and the
operations that create, remove and rename use the two results side by side.  On whatever
directories hold, as long as the walk stays inside the inode table and the image:

* an error of the second is the error of the first;
* otherwise the second gives the inode that the first gives for the path without its last
  component, and the first gives the inode of the first valid entry there that has the last
  component as its name.
-/

namespace Fsx600

open Checked Mkfs

/-- Slot `j` holds the first valid entry of a directory block with the name `n`. -/
structure FirstNamed (b : Block) (n : Name) (j : ℕ) : Prop where
  lt : j < 32
  valid : (b.dirent j).valid = true
  named : (b.dirent j).named n = true
  first : ∀ k < j, (b.dirent k).valid = true → (b.dirent k).named n = false

theorem firstNamed_of_findEntry {b : Block} {n : Name} {j : ℕ} (h : findEntry b n = some j) :
    FirstNamed b n j := by
  obtain ⟨hlt, hnamed, hvalid, hfirst⟩ := findEntry_eq_some h
  refine ⟨hlt, hvalid, hnamed, fun k hk hv => ?_⟩
  by_contra hn
  have hfree := hfirst k hk (Bool.of_not_eq_false hn)
  rw [hv] at hfree
  exact Bool.noConfusion hfree

namespace FS

variable {g : Layout} {s : FS g} {path : Path}

/-- The child of a directory is what its first entry of the name says. -/
theorem code_child (d : ℕ) (n : Name) :
    (∃ j, FirstNamed (s.dirBlock d) n j ∧ code (s.child d n) = (s.entry d j).inode.toNat) ∨
      (∀ j < 32, (s.entry d j).valid = true → (s.entry d j).named n = false) ∧
        code (s.child d n) = -ENOENT := by
  rw [child]
  cases hf : findEntry (s.dirBlock d) n with
  | none =>
    refine Or.inr ⟨fun j hj hv => ?_, rfl⟩
    by_contra hn
    have hfree := findEntry_eq_none hf j hj (Bool.of_not_eq_false hn)
    rw [entry, hfree] at hv
    exact Bool.noConfusion hv
  | some j => exact Or.inl ⟨j, firstNamed_of_findEntry hf, rfl⟩

/-- **The two walkers agree.** -/
theorem walkers_agree (s : FS g) (path : Path) (hp : path.Proper)
    (hin : s.WalkInside 1 path.tokens) : ∃ c r last,
      s.translatePathToInum path = .ok c ∧
      s.getParentInum path = .ok (r, last ++ List.replicate (26 - last.length) 0) ∧
      path.tokens.getLast? = some last ∧
      (r < 0 → c = r) ∧
      (0 ≤ r →
        (∀ q : Path, q.tokens = path.tokens.dropLast → s.translatePathToInum q = .ok r) ∧
        ((∃ j, FirstNamed (s.dirBlock r.toNat) last j ∧ c = (s.entry r.toNat j).inode.toNat) ∨
          (∀ j < 32, (s.entry r.toNat j).valid = true → (s.entry r.toNat j).named last = false) ∧
            c = -ENOENT)) := by
  obtain ⟨c, hc⟩ := hin.translatePathToInum_returns hp.2.1
  obtain ⟨⟨r, buf⟩, hr⟩ :=
    hin.getParentInum_returns hp.2.1 fun t ht => (hp.2.2 t ht).trans (by omega)
  rcases walkers hc hr with ⟨hnil, -⟩ | ⟨e, he, hw, -, rfl, rfl⟩ |
    ⟨d, last, hw, hlast, -, rfl, rfl, -, rfl⟩
  · exact absurd hnil hp.ne_nil
  · rcases getParentInum_ok hr with ⟨hnil, -⟩ | ⟨last, hlast, -, -, rfl⟩
    · exact absurd hnil hp.ne_nil
    · exact ⟨r, r, last, hc, hr, hlast, fun _ => rfl, fun h => absurd h (not_le.mpr (error_neg he))⟩
  · refine ⟨_, d, last, hc, hr, hlast, fun h => absurd h (by omega), fun _ => ⟨fun q hq => ?_, ?_⟩⟩
    · have hin' : s.WalkInside 1 q.tokens := hq ▸ hin.dropLast
      have hlen : q.tokens.length ≤ 63 := by
        rw [hq, List.length_dropLast]
        have := hp.2.1
        omega
      obtain ⟨c', hc'⟩ := hin'.translatePathToInum_returns hlen
      rw [hc', translatePathToInum_ok hc', hq, resolve_of_walk hw, code_inr]
    · rw [Int.toNat_natCast]
      exact code_child d last

/-- The path `/a/b` after `mkdir /a` and `mknod /a/b`. -/
theorem walkers_agree_file : ∃ s c r last,
    (fresh formattable_256 0).execAll ⟨1000, 1000, 0⟩ [.mkdir pathA 0x1ED, .mknod pathAB 0x81A4] =
      .ok s ∧
    s.translatePathToInum pathAB = .ok c ∧
    s.getParentInum pathAB = .ok (r, last ++ List.replicate (26 - last.length) 0) ∧
    last = [98] ∧ c = 3 ∧ r = 2 := by
  have hend : endsIn (fun s => decide (s.WalkInside 1 pathAB.tokens) &&
      decide (s.resolve 1 pathAB.tokens = .inr 3) && decide (s.walk 1 [[97]] = .inr 2))
      ((fresh formattable_256 0).execAll ⟨1000, 1000, 0⟩
        [.mkdir pathA 0x1ED, .mknod pathAB 0x81A4]) = true := by
    decide +kernel
  obtain ⟨s, hs, ht⟩ := exists_of_endsIn hend
  rw [Bool.and_eq_true, Bool.and_eq_true, decide_eq_true_iff, decide_eq_true_iff,
    decide_eq_true_iff] at ht
  obtain ⟨⟨hin, hres⟩, hwalk⟩ := ht
  have htokens : pathAB.tokens = [[97], [98]] := by decide +kernel
  obtain ⟨c, r, last, hc, hr, hlast, -⟩ := walkers_agree s pathAB (by decide +kernel) hin
  refine ⟨s, c, r, last, hs, hc, hr, ?_, ?_, ?_⟩
  · rw [htokens] at hlast
    exact (Option.some.inj hlast).symm
  · rw [translatePathToInum_ok hc, hres]
    rfl
  · rcases getParentInum_ok hr with ⟨hnil, -⟩ | ⟨-, -, hr', -⟩
    · exact absurd hnil (by rw [htokens]; simp)
    · rw [hr', htokens]
      exact congrArg code hwalk

end FS

end Fsx600
