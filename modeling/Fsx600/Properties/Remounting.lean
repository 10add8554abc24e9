import Fsx600.Properties.SafeRuns
import Fsx600.Spec.Alike

/-!
# Mounting again changes nothing

Every operation writes back what it changed before it returns, so the process can be stopped
between any two calls, and started again on the image that it leaves: what the calls return, then
and later, is the same.

The proof keeps two runs side by side.  The one without remounts carries the invariant that the
disk holds what memory holds (`Synced`); the other is in a state that no call can tell from it
(`Alike`).  A remount of the other one leads to what is on its disk, which is the disk of the
first, which holds what the memory of the first holds (`Synced.alike_mounted`).
-/

namespace Fsx600

open Checked Mkfs

namespace FS

variable {g : Layout} {s t u : FS g}

/-! ## States that are alike -/

/-- Whether a state is synchronised can be told from what is within the arrays. -/
theorem Synced.of_alike (h : s.Synced) (ha : Alike s t) : t.Synced where
  inodeMap := inodeMapSynced_iff.2 fun i hi => by
    rw [ha.disk, ha.inodeMap i hi]
    exact inodeMapSynced_iff.1 h.inodeMap i hi
  blockMap := blockMapSynced_iff.2 fun i hi => by
    rw [ha.disk, ha.blockMap i hi]
    exact blockMapSynced_iff.1 h.blockMap i hi
  inodes := inodesSynced_iff.2 fun i hi => by
    rw [ha.disk, ha.inodes i hi]
    exact inodesSynced_iff.1 h.inodes i hi

/-- **A remount** of a synchronised state leads to a state that is alike. -/
theorem Synced.alike_mounted (h : s.Synced) (hsb : g.Describes s.image) :
    Alike s (FS.mounted g s.image) := by
  obtain ⟨-, hi, hb, hn⟩ := h.mounted hsb
  exact ⟨rfl, hi, hb, hn⟩

theorem Alike.image (h : Alike s t) : t.image = s.image := by
  rw [FS.image, FS.image, h.disk]

/-! ## Runs -/

/-- Calls one after another, each of which writes single blocks in the data region only. -/
def WritesData (s : FS g) : List (Context × Call) → Prop
  | [] => True
  | (c, a) :: rest => ∀ r t, s.exec c a = .ok (r, t) → Clean s t ∧ t.WritesData rest

/-- Safe calls do. -/
theorem AllSafe.writesData (h : Indexed s) {calls : List (Context × Call)} (hsafe : s.AllSafe calls) :
    s.WritesData calls := by
  induction calls generalizing s with
  | nil => trivial
  | cons x rest ih =>
    intro r t hr
    obtain ⟨ht, hclean⟩ := h.safeCall hsafe.1 hr
    exact ⟨hclean, ih ht (hsafe.2 r t hr)⟩

/-- The same codes, and states that are alike. -/
def SameOutcome (x : List ℤ × FS g) (y : List ℤ × Volume) : Prop :=
  y.1 = x.1 ∧ ∃ v : FS g, y.2 = ⟨g, v⟩ ∧ Alike x.2 v

theorem matches_run (events : List Event) (hsync : s.Synced) (hsb : g.Describes s.image)
    (hsu : Alike s u) (hwrites : s.WritesData (Event.calls events)) :
    Matches SameOutcome (s.runCalls (Event.calls events)) (Volume.run ⟨g, u⟩ events) := by
  induction events generalizing s u with
  | nil => exact .ok ⟨rfl, u, rfl, hsu⟩
  | cons e rest ih =>
    cases e with
    | call c a =>
      rw [Event.calls, runCalls, Volume.run]
      cases hx : s.exec c a with
      | error e =>
        rw [(hsu.exec c a).of_error hx]
        exact .error e
      | ok x =>
        obtain ⟨r, s'⟩ := x
        obtain ⟨y, hy, hpair⟩ := (hsu.exec c a).of_ok hx
        cases hpair with
        | @mk _ u' _ h =>
          obtain ⟨hclean, hrest⟩ := hwrites r s' hx
          obtain ⟨hsync', h0⟩ := hsync.cleanStep (hclean.cleanStep ⟨c, r, hx⟩)
          rw [hy]
          refine (ih hsync' (describes_of_disk hsb h0) h hrest).bind ?_
          rintro ⟨codes, t⟩ ⟨codes', w⟩ ⟨hc, v, hw, htv⟩
          dsimp only at hc hw
          subst hc hw
          exact .ok ⟨rfl, v, rfl, htv⟩
    | remount =>
      have hsb' : g.Describes u.image := by
        rw [hsu.image]
        exact hsb
      rw [Event.calls, Volume.run, fsInit_eq hsb', ok_bind]
      exact ih hsync hsb (hsu.trans ((hsync.of_alike hsu).alike_mounted hsb')) hwrites

/-- **Mounting again changes nothing.**  Let calls be made from a synchronised state, and let them
write single blocks in the data region only.  Then with remounts between them, at any places and
as many as one likes, they return the same, or stop at the same fault; and if they return, every
path has the same attributes, entries and contents as without, and the disk is the same. -/
theorem remounts_invisible (s : FS g) (events : List Event) (hsync : s.Synced)
    (hsb : g.Describes s.image) (hwrites : s.WritesData (Event.calls events)) :
    (∀ e, s.runCalls (Event.calls events) = .error e → Volume.run ⟨g, s⟩ events = .error e) ∧
      ∀ codes t, s.runCalls (Event.calls events) = .ok (codes, t) → ∃ v : FS g,
        Volume.run ⟨g, s⟩ events = .ok (codes, ⟨g, v⟩) ∧ v.disk = t.disk ∧
          (∀ path, v.fsGetattr path = t.fsGetattr path) ∧ (∀ path, v.fsReaddir path = t.fsReaddir path) ∧
          (∀ path buf len offset, v.fsRead path buf len offset = t.fsRead path buf len offset) ∧
          v.fsStatfs = t.fsStatfs := by
  have hmatches := matches_run events hsync hsb (Alike.refl s) hwrites
  refine ⟨fun e he => hmatches.of_error he, fun codes t ht => ?_⟩
  obtain ⟨⟨codes', w⟩, hw, hc, v, hv, h⟩ := hmatches.of_ok ht
  dsimp only at hc hv
  subst hc hv
  refine ⟨v, hw, ?_⟩
  exact ⟨h.disk, h.fsGetattr, h.fsReaddir, h.fsRead, h.fsStatfs⟩

/-- The sample calls with remounts between them. -/
def sampleEvents : List Event :=
  [.remount, .call ⟨1000, 1000, 0⟩ (.mkdir pathA 0x1ED), .remount, .remount,
    .call ⟨1000, 1000, 1⟩ (.mknod pathAB 0x81A4), .remount,
    .call ⟨1000, 1000, 2⟩ (.write pathAB (fun _ => 7) 2000 0), .remount]

theorem sampleEvents_return : ∃ (t v : FS (layout formattable_256)),
    (fresh formattable_256 0).runCalls sampleCalls = .ok ([0, 0, 2000], t) ∧
      Volume.run ⟨_, fresh formattable_256 0⟩ sampleEvents = .ok ([0, 0, 2000], ⟨_, v⟩) ∧
      v.disk = t.disk ∧ ∀ path, v.fsGetattr path = t.fsGetattr path := by
  obtain ⟨t, ht⟩ := sampleCalls_return
  have hwrites := AllSafe.writesData (indexed_fresh formattable_256 0) allSafe_sampleCalls
  obtain ⟨v, hv, hdisk, hattr, -⟩ := (remounts_invisible (fresh formattable_256 0) sampleEvents
    (synced_fresh _ _) (describes _ _) hwrites).2 _ t ht
  exact ⟨t, v, ht, hv, hdisk, hattr⟩

end FS

end Fsx600
