import Fsx600.Model.Volume
import Fsx600.Properties.ReadBounds
import Fsx600.Properties.NamesTaken

/-!
# Runs of safe calls

The calls of all nine operations, under one condition: a truncation is of a file without blocks
of pointers, a write takes no level-1 block with leftovers in it, and `fs_chmod` leaves it at
that whether an inode is a directory.  In a run of such calls the state stays well formed, its
disk holds what memory holds, and the superblock is the one that `mkfs-x6` wrote; so the image
can be mounted again between any two of them.
-/

namespace Fsx600

open Checked Function GuardedRun Mkfs

namespace FS

variable {g : Layout} {s s' t : FS g} {c : Context} {a : Call} {path : Path} {r : ℤ}

/-- `fs_chmod` gives an inode a mode that is a directory's if the old one was. -/
def ModeSafe (s : FS g) (path : Path) (mode : UInt32) : Prop := ∀ i, s.resolve 1 path.tokens = .inr i →
  sIsDir (chmodMode (s.inodes i).mode mode) = s.isDir i

instance (s : FS g) (path : Path) (mode : UInt32) : Decidable (s.ModeSafe path mode) :=
  match h : s.resolve 1 path.tokens with
  | .inl _ => .isTrue fun _ hi => by simp [h] at hi
  | .inr i => decidable_of_iff (sIsDir (chmodMode (s.inodes i).mode mode) = s.isDir i)
      ⟨fun hp _ hi => Sum.inr.inj (h.symm.trans hi) ▸ hp, fun hp => hp i h⟩

/-- The condition on the calls of all operations. -/
def Safe (s : FS g) : Call → Prop
  | .chmod path mode => s.ModeSafe path mode
  | a => s.FileSafe a

instance (s : FS g) : (a : Call) → Decidable (s.Safe a)
  | .chmod path mode => inferInstanceAs (Decidable (s.ModeSafe path mode))
  | .truncate path len => inferInstanceAs (Decidable (s.FileSafe (.truncate path len)))
  | .write path buf len offset => inferInstanceAs (Decidable (s.FileSafe (.write path buf len offset)))
  | .mknod _ _ | .mkdir _ _ | .unlink _ | .rmdir _ | .rename _ _ | .utime _ _ =>
    inferInstanceAs (Decidable True)

/-! ## What one call writes -/

/-- A rename writes one block, that of the directory both names are in. -/
theorem clean_of_fsRename (hwf : Wf s) {srcPath dstPath : Path}
    (h : s.fsRename c srcPath dstPath = .ok (r, s')) : Clean s s' := by
  rw [fsRename, bind_eq_ok] at h
  obtain ⟨⟨pi, buf⟩, hpi, h⟩ := h
  dsimp only at h
  rw [bind_eq_ok] at h
  obtain ⟨ci, hci, h⟩ := h
  rw [bind_eq_ok] at h
  obtain ⟨⟨pi', buf'⟩, -, h⟩ := h
  dsimp only at h
  split at h
  · obtain ⟨-, rfl⟩ := Prod.mk.inj (Except.ok.inj h)
    exact .refl s
  split at h
  · obtain ⟨-, rfl⟩ := Prod.mk.inj (Except.ok.inj h)
    exact .refl s
  rw [bind_eq_ok] at h
  obtain ⟨pino, hpino, h⟩ := h
  obtain ⟨hpi0, -, rfl⟩ := inode_ok hpino
  obtain ⟨p, rfl, hdir⟩ : ∃ p : ℕ, pi = p ∧ s.AllocDir p := by
    rcases hwf.parent_cases hci hpi with ⟨-, -, rfl⟩ | ⟨e, he, -, -, -, rfl⟩ | ⟨p, -, -, hdir, hp, -⟩
    · exact absurd hpi0 (by decide)
    · have := error_neg he
      omega
    · exact ⟨p, hp, hdir⟩
  rw [bind_eq_ok] at h
  obtain ⟨block, -, h⟩ := h
  rw [bind_eq_ok] at h
  obtain ⟨name, -, h⟩ := h
  split at h
  · obtain ⟨-, rfl⟩ := Prod.mk.inj (Except.ok.inj h)
    exact .refl s
  rw [bind_eq_ok] at h
  obtain ⟨⟨u, block'⟩, hu, h⟩ := h
  dsimp only at h
  rw [bind_eq_ok] at h
  obtain ⟨v, hv, h⟩ := h
  obtain ⟨-, rfl⟩ := writeBlock_ok hv
  obtain ⟨-, rfl⟩ := Prod.mk.inj (Except.ok.inj h)
  have htrace : u.trace = s.trace := by
    rw [renameEntry] at hu
    split at hu
    · obtain ⟨rfl, -⟩ := Prod.mk.inj (Except.ok.inj hu)
      rfl
    · rw [bind_eq_ok] at hu
      obtain ⟨ino, -, hu⟩ := hu
      obtain ⟨rfl, -⟩ := Prod.mk.inj (Except.ok.inj hu)
      rfl
  refine ⟨[((s.inodes p).directAt 0).toNat], congrArg _ htrace, fun x hx => ?_⟩
  obtain rfl := List.mem_singleton.1 hx
  exact (hwf.dirBlock_inUse hdir).1

theorem TouchResult.clean {f : Inode → Inode} (h : TouchResult f s path r s') : Clean s s' := by
  cases h with
  | badPath => exact .refl s
  | touched => exact ⟨[], rfl, by simp⟩

/-- A change of times and permissions takes no inode. -/
theorem TouchResult.inodeMap {f : Inode → Inode} (h : TouchResult f s path r s') :
    s'.inodeMap = s.inodeMap := by
  cases h with
  | badPath => rfl
  | touched => rfl

/-- **One safe call** keeps a state well formed, and writes single blocks in the data region only. -/
theorem Indexed.safeCall (h : Indexed s) (hg : s.Safe a) (hr : s.exec c a = .ok (r, s')) :
    Indexed s' ∧ Clean s s' := by
  have hwf := h.toWf
  cases a with
  | mknod path mode =>
    refine ⟨h.mknod hr, ?_⟩
    cases fsMknod_ok hwf hr with
    | badPath => exact .refl s
    | «exists» => exact .refl s
    | noInode => exact .refl s
    | noSlot => exact .writeInodeMap s
    | noBlock => exact .writeInodeMap s
    | created _ hc => exact hc.clean hwf
  | mkdir path mode =>
    refine ⟨h.mknod hr, ?_⟩
    cases fsMkdir_ok hwf hr with
    | badPath => exact .refl s
    | «exists» => exact .refl s
    | noInode => exact .refl s
    | noSlot => exact .writeInodeMap s
    | noBlock => exact .writeInodeMap s
    | created _ hc => exact hc.clean hwf
  | unlink path =>
    have hres := fsUnlink_ok hwf hr
    refine ⟨h.of_unlinkResult hres, ?_⟩
    cases hres with
    | badPath => exact .refl s
    | isDir => exact .refl s
    | removed _ _ _ hrem => exact hrem.clean hwf
  | rmdir path =>
    have hres := fsRmdir_ok hwf hr
    refine ⟨h.of_rmdirResult hres, ?_⟩
    cases hres with
    | badPath => exact .refl s
    | notDir => exact .refl s
    | notEmpty => exact .refl s
    | removed _ _ _ hrem => exact hrem.clean hwf
  | rename srcPath dstPath => exact ⟨h.of_renameResult (fsRename_ok hwf hr), clean_of_fsRename hwf hr⟩
  | chmod path mode =>
    have hres := fsChmod_ok hr
    have hwf' := hres.wf hwf hg (fun _ => rfl) (fun _ => rfl) fun _ => rfl
    exact ⟨h.of_inodeMap hwf' fun i hi => hres.inodeMap ▸ hi, hres.clean⟩
  | utime path modtime =>
    have hres := fsUtime_ok hr
    have hwf' := hres.wf hwf (fun _ _ => rfl) (fun _ => rfl) (fun _ => rfl) fun _ => rfl
    exact ⟨h.of_inodeMap hwf' fun i hi => hres.inodeMap ▸ hi, hres.clean⟩
  | truncate path len =>
    have hres := hwf.fsTruncate_ok hr
    have hwf' := hres.wf hwf hg
    cases hres with
    | badLength => exact ⟨h, .refl s⟩
    | badPath => exact ⟨h, .refl s⟩
    | isDir => exact ⟨h, .refl s⟩
    | truncated _ _ _ ht =>
      exact ⟨h.of_inodeMap hwf' fun i hi => ht.inodeMap ▸ hi, ⟨[], ht.trace, by simp⟩⟩
  | write path buf len offset =>
    have hinv := (hwf.fsWrite_ok hr).invariant (P := fun t => t.inodeMap = s.inodeMap ∧ Clean s t) hwf hg
      ⟨rfl, .refl s⟩ (fun _ _ _ _ _ _ _ _ _ hwf' hP hstored => ?_) fun _ _ hP => hP
    · exact ⟨h.of_inodeMap hinv.1 fun i hi => hinv.2.1 ▸ hi, hinv.2.2⟩
    · exact ⟨hstored.inodeMap.trans hP.1, hP.2.trans (hstored.clean hwf'.blocks)⟩

/-! ## Runs -/

/-- The superblock says the same as long as it is not written. -/
theorem describes_of_disk (h : g.Describes s.image) (h0 : t.disk 0 = s.disk 0) : g.Describes t.image := by
  have hblock : t.image.block 0 = s.image.block 0 := h0
  exact ⟨by rw [hblock, h.inodeMapSz], by rw [hblock, h.blockMapSz], by rw [hblock, h.inodeRegSz],
    by rw [hblock, h.maxNumBlocks], rfl⟩

/-- Calls one after another, each of which meets the guard in the state it is made in. -/
def AllMeet (guard : FS g → Call → Prop) (s : FS g) : List (Context × Call) → Prop
  | [] => True
  | (c, a) :: rest => guard s a ∧ ∀ r t, s.exec c a = .ok (r, t) → t.AllMeet guard rest

instance decidableAllMeet (guard : FS g → Call → Prop) [∀ s a, Decidable (guard s a)] (s : FS g) :
    (calls : List (Context × Call)) → Decidable (s.AllMeet guard calls)
  | [] => .isTrue trivial
  | (c, a) :: rest =>
    match h : s.exec c a with
    | .error _ => decidable_of_iff (guard s a)
        ⟨fun ha => ⟨ha, fun _ _ ht => by simp [h] at ht⟩, fun ha => ha.1⟩
    | .ok (r, t) =>
      haveI := decidableAllMeet guard t rest
      decidable_of_iff (guard s a ∧ t.AllMeet guard rest)
        ⟨fun ha => ⟨ha.1, fun _ _ ht => by
          obtain ⟨-, rfl⟩ := Prod.mk.inj (Except.ok.inj (h.symm.trans ht))
          exact ha.2⟩, fun ha => ⟨ha.1, ha.2 r t h⟩⟩

/-- Calls that meet the guard in every state. -/
theorem AllMeet.of_forall {guard : FS g → Call → Prop} {calls : List (Context × Call)}
    (h : ∀ x ∈ calls, ∀ u, guard u x.2) : s.AllMeet guard calls := by
  induction calls generalizing s with
  | nil => exact trivial
  | cons x rest ih =>
    exact ⟨h x List.mem_cons_self s, fun _ _ _ => ih fun y hy => h y (List.mem_cons_of_mem x hy)⟩

/-- Calls each of which is safe. -/
def AllSafe (s : FS g) (calls : List (Context × Call)) : Prop := s.AllMeet Safe calls

instance (s : FS g) (calls : List (Context × Call)) : Decidable (s.AllSafe calls) :=
  inferInstanceAs (Decidable (s.AllMeet Safe calls))

theorem runCalls_cons {calls : List (Context × Call)} {codes : List ℤ}
    (h : s.runCalls ((c, a) :: calls) = .ok (codes, t)) : ∃ r u codes', s.exec c a = .ok (r, u) ∧
      u.runCalls calls = .ok (codes', t) ∧ codes = r :: codes' := by
  rw [runCalls, bind_eq_ok] at h
  obtain ⟨⟨r, u⟩, hu, h⟩ := h
  rw [bind_eq_ok] at h
  obtain ⟨⟨codes', t'⟩, ht, h⟩ := h
  obtain ⟨rfl, rfl⟩ := Prod.mk.inj (Except.ok.inj h)
  exact ⟨r, u, codes', hu, ht, rfl⟩

/-- What every call that meets the guard keeps holds after a run of them. -/
theorem AllMeet.invariant {guard : FS g → Call → Prop} {P : FS g → Prop} {calls : List (Context × Call)}
    {codes : List ℤ} (hP : ∀ {s t : FS g} {c a r}, P s → guard s a → s.exec c a = .ok (r, t) → P t)
    (h0 : P s) (hmeet : s.AllMeet guard calls) (hrun : s.runCalls calls = .ok (codes, t)) : P t := by
  induction calls generalizing s codes with
  | nil =>
    obtain ⟨-, rfl⟩ := Prod.mk.inj (Except.ok.inj hrun)
    exact h0
  | cons x rest ih =>
    obtain ⟨c, a⟩ := x
    obtain ⟨r, u, codes', hu, ht, -⟩ := runCalls_cons hrun
    exact ih (hP h0 hmeet.1 hu) (hmeet.2 r u hu) ht

/-- A well-formed state whose disk holds what memory holds, with the superblock of `s₀`. -/
structure Steady (s₀ s : FS g) : Prop where
  indexed : Indexed s
  synced : s.Synced
  superblock : s.disk 0 = s₀.disk 0

theorem Steady.safeCall {s₀ : FS g} (h : Steady s₀ s) (hg : s.Safe a) (hr : s.exec c a = .ok (r, t)) :
    Steady s₀ t := by
  obtain ⟨hidx, hclean⟩ := h.indexed.safeCall hg hr
  obtain ⟨hsync, h0⟩ := h.synced.cleanStep (hclean.cleanStep ⟨c, r, hr⟩)
  exact ⟨hidx, hsync, h0.trans h.superblock⟩

/-- **A run of safe calls.** -/
theorem Steady.run {s₀ : FS g} (h : Steady s₀ s) {calls : List (Context × Call)} {codes : List ℤ}
    (hsafe : s.AllSafe calls) (hrun : s.runCalls calls = .ok (codes, t)) : Steady s₀ t :=
  AllMeet.invariant Steady.safeCall h hsafe hrun

theorem steady_fresh {n : ℕ} (h : Formattable n) (t : UInt32) : Steady (fresh h t) (fresh h t) :=
  ⟨indexed_fresh h t, synced_fresh h t, rfl⟩

/-- A directory, a file in it, and 2000 bytes in the file. -/
def sampleCalls : List (Context × Call) :=
  [(⟨1000, 1000, 0⟩, .mkdir pathA 0x1ED), (⟨1000, 1000, 1⟩, .mknod pathAB 0x81A4),
    (⟨1000, 1000, 2⟩, .write pathAB (fun _ => 7) 2000 0)]

theorem allSafe_sampleCalls : (fresh formattable_256 0).AllSafe sampleCalls := by
  decide +kernel

theorem sampleCalls_return :
    ∃ s, (fresh formattable_256 0).runCalls sampleCalls = .ok ([0, 0, 2000], s) := by
  have hcodes : ((fresh formattable_256 0).runCalls sampleCalls).map Prod.fst = .ok [0, 0, 2000] := by
    decide +kernel
  cases hrun : (fresh formattable_256 0).runCalls sampleCalls with
  | error e => simp [hrun, Except.map] at hcodes
  | ok x =>
    obtain ⟨codes, s⟩ := x
    rw [hrun] at hcodes
    obtain rfl : codes = [0, 0, 2000] := Except.ok.inj hcodes
    exact ⟨s, rfl⟩

end FS

end Fsx600
