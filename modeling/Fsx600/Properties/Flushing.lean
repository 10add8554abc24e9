import Fsx600.Spec.Synced
import Fsx600.Spec.Effects

/-!
# No operation forgets to flush

Every operation that returns has written back every bitmap and every inode it changed in
memory, whichever way it returned.  `Flushed` is the bookkeeping: of the three
structures, those flagged `true` equal their region on disk.  A change in memory takes
a flag away, the flush that goes with it gives it back, and a single-block write keeps
all three as long as it goes to the data region.

That proviso is about the blocks that single-block writes went to, which the ghost
`trace` records: all statements are about the part of the trace that is new.
-/

namespace Fsx600

open Checked Function GuardedRun

namespace FS

variable {g : Layout} {s₀ s s' : FS g} {i b n i' b' n' : Bool} {c : Context} {path : Path} {r : ℤ}

/-- Since `s₀`, if every single-block write went to the data region, the superblock is
untouched and the flagged structures are on disk. -/
def Flushed (s₀ : FS g) (i b n : Bool) (s : FS g) : Prop :=
  ∃ w, s.trace = w ++ s₀.trace ∧ ((∀ x ∈ w, g.startBlock ≤ x) → s.disk 0 = s₀.disk 0 ∧
    (i = true → s.InodeMapSynced) ∧ (b = true → s.BlockMapSynced) ∧ (n = true → s.InodesSynced))

/-- Everything is on disk. -/
abbrev AllFlushed (s₀ s : FS g) : Prop := Flushed s₀ true true true s

theorem Synced.flushed (h : s.Synced) : AllFlushed s s :=
  ⟨[], rfl, fun _ => ⟨rfl, fun _ => h.inodeMap, fun _ => h.blockMap, fun _ => h.inodes⟩⟩

/-- A change in memory that the flagged structures do not see. -/
theorem Flushed.memory (h : Flushed s₀ i b n s) (htrace : s'.trace = s.trace)
    (hdisk : s'.disk = s.disk) (hi : i' = true → i = true ∧ s'.inodeMap = s.inodeMap)
    (hb : b' = true → b = true ∧ s'.blockMap = s.blockMap)
    (hn : n' = true → n = true ∧ s'.inodes = s.inodes) : Flushed s₀ i' b' n' s' := by
  obtain ⟨w, hw, h⟩ := h
  refine ⟨w, htrace.trans hw, fun hge => ?_⟩
  obtain ⟨h0, h1, h2, h3⟩ := h hge
  refine ⟨by rw [hdisk, h0], fun hi' => ?_, fun hb' => ?_, fun hn' => ?_⟩
  · rw [InodeMapSynced, hdisk, (hi hi').2]
    exact h1 (hi hi').1
  · rw [BlockMapSynced, hdisk, (hb hb').2]
    exact h2 (hb hb').1
  · rw [InodesSynced, hdisk, (hn hn').2]
    exact h3 (hn hn').1

theorem Flushed.setInodeBit (h : Flushed s₀ i b n s) (k : ℕ) (v : Bool) :
    Flushed s₀ false b n (s.setInodeBit k v) :=
  h.memory rfl rfl (by simp) (fun hb => ⟨hb, rfl⟩) (fun hn => ⟨hn, rfl⟩)

theorem Flushed.setBlockBit (h : Flushed s₀ i b n s) (k : ℕ) (v : Bool) :
    Flushed s₀ i false n (s.setBlockBit k v) :=
  h.memory rfl rfl (fun hi => ⟨hi, rfl⟩) (by simp) (fun hn => ⟨hn, rfl⟩)

theorem Flushed.setInode (h : Flushed s₀ i b n s) (k : ℕ) (ino : Inode) :
    Flushed s₀ i b false (s.setInode k ino) :=
  h.memory rfl rfl (fun hi => ⟨hi, rfl⟩) (fun hb => ⟨hb, rfl⟩) (by simp)

theorem Flushed.writeInodeMap (h : Flushed s₀ i b n s) : Flushed s₀ true b n s.writeInodeMap := by
  obtain ⟨w, hw, h⟩ := h
  refine ⟨w, hw, fun hge => ?_⟩
  obtain ⟨h0, -, h2, h3⟩ := h hge
  refine ⟨?_, fun _ k hk => ?_, fun hb k hk => ?_, fun hn k hk => ?_⟩
  · exact (disk_writeRegion_of_lt _ _ _ (by omega)).trans h0
  · exact disk_writeRegion_add _ _ _ hk
  · exact (disk_writeRegion_of_ge _ _ (by omega)).trans (h2 hb k hk)
  · exact (disk_writeRegion_of_ge _ _ (by omega)).trans (h3 hn k hk)

theorem Flushed.writeBlockMap (h : Flushed s₀ i b n s) : Flushed s₀ i true n s.writeBlockMap := by
  obtain ⟨w, hw, h⟩ := h
  refine ⟨w, hw, fun hge => ?_⟩
  obtain ⟨h0, h1, -, h3⟩ := h hge
  refine ⟨?_, fun hi k hk => ?_, fun _ k hk => ?_, fun hn k hk => ?_⟩
  · exact (disk_writeRegion_of_lt _ _ _ (by omega)).trans h0
  · exact (disk_writeRegion_of_lt _ _ _ (by omega)).trans (h1 hi k hk)
  · exact disk_writeRegion_add _ _ _ hk
  · exact (disk_writeRegion_of_ge _ _ (by omega)).trans (h3 hn k hk)

theorem Flushed.writeAllInodes (h : Flushed s₀ i b n s) : Flushed s₀ i b true s.writeAllInodes := by
  obtain ⟨w, hw, h⟩ := h
  refine ⟨w, hw, fun hge => ?_⟩
  obtain ⟨h0, h1, h2, -⟩ := h hge
  refine ⟨?_, fun hi k hk => ?_, fun hb k hk => ?_, fun _ k hk => ?_⟩
  · exact (disk_writeRegion_of_lt _ _ _ (by omega)).trans h0
  · exact (disk_writeRegion_of_lt _ _ _ (by omega)).trans (h1 hi k hk)
  · exact (disk_writeRegion_of_lt _ _ _ (by omega)).trans (h2 hb k hk)
  · exact disk_writeRegion_add _ _ _ hk

theorem Flushed.putBlock (h : Flushed s₀ i b n s) (p : ℕ) (blk : Block) :
    Flushed s₀ i b n (s.putBlock p blk) := by
  obtain ⟨w, hw, h⟩ := h
  refine ⟨p :: w, congrArg (p :: ·) hw, fun hge => ?_⟩
  obtain ⟨h0, h1, h2, h3⟩ := h fun x hx => hge x (List.mem_cons_of_mem p hx)
  have hp := hge p List.mem_cons_self
  rw [Layout.startBlock] at hp
  refine ⟨?_, fun hi k hk => ?_, fun hb k hk => ?_, fun hn k hk => ?_⟩ <;>
    rw [disk_putBlock, if_neg (by omega)]
  · exact h0
  · exact h1 hi k hk
  · exact h2 hb k hk
  · exact h3 hn k hk

/-- The bookkeeping is kept by every step of the operations. -/
theorem kept_flushed (s₀ : FS g) : Kept (Flushed s₀) where
  takeInode := fun h _ => h.setInodeBit _ true
  dropInode := fun h => h.setInodeBit _ false
  markBlock := fun h _ => h.setBlockBit _ true
  clearBlock := fun h _ => h.setBlockBit _ false
  aheadBlock := fun h => h.memory rfl rfl (fun hi => ⟨hi, rfl⟩) (by simp) (fun hn => ⟨hn, rfl⟩)
  setInode := fun h => h.setInode _ _
  writeInodeMap := Flushed.writeInodeMap
  writeBlockMap := Flushed.writeBlockMap
  writeAllInodes := Flushed.writeAllInodes
  putBlock := fun h => h.putBlock _ _

/-! ## Calls and runs -/

/-- A call with a return, whose single-block writes all go to the data region. -/
structure CleanStep (s : FS g) (a : Call) (s' : FS g) : Prop where
  returns : s.Step a s'
  writes : ∀ w, s'.trace = w ++ s.trace → ∀ x ∈ w, g.startBlock ≤ x

/-- Since `s`, single blocks were written in the data region only. -/
def Clean (s s' : FS g) : Prop := ∃ w, s'.trace = w ++ s.trace ∧ ∀ x ∈ w, g.startBlock ≤ x

theorem Clean.refl (s : FS g) : Clean s s := ⟨[], rfl, by simp⟩

theorem Clean.writeInodeMap (s : FS g) : Clean s s.writeInodeMap := ⟨[], rfl, by simp⟩

theorem Clean.trans {t : FS g} (h : Clean s t) (h' : Clean t s') : Clean s s' := by
  obtain ⟨w, hw, hge⟩ := h
  obtain ⟨w', hw', hge'⟩ := h'
  refine ⟨w' ++ w, by rw [hw', hw, List.append_assoc], fun x hx => ?_⟩
  rcases List.mem_append.1 hx with hx | hx
  · exact hge' x hx
  · exact hge x hx

theorem Clean.cleanStep (h : Clean s s') {a : Call} (hs : s.Step a s') : CleanStep s a s' := by
  obtain ⟨w, hw, hge⟩ := h
  refine ⟨hs, fun w' hw' x hx => hge x ?_⟩
  rwa [← List.append_cancel_right (hw'.symm.trans hw)]

theorem Created.clean {mode : UInt32} {p j n : ℕ} {name : Name} {fresh : Option ℕ}
    (hwf : Wf s) (h : Created c mode p j n name fresh s s') : Clean s s' := by
  refine ⟨_, h.trace, fun x hx => ?_⟩
  rcases List.mem_cons.1 hx with rfl | hx
  · exact (hwf.dirBlock_inUse h.parent).1
  · exact (h.fresh_free x (by simpa using hx)).1

theorem Removed.clean {p j k : ℕ} {e : Dirent} (hwf : Wf s) (h : Removed p j k e s s') : Clean s s' := by
  refine ⟨[_], h.trace, fun x hx => ?_⟩
  obtain rfl := List.mem_singleton.1 hx
  exact (hwf.dirBlock_inUse h.edge.1).1

/-- One call keeps a synchronised state synchronised, and the superblock as it is. -/
theorem Synced.cleanStep (h : s.Synced) {a : Call} (hs : CleanStep s a s') :
    s'.Synced ∧ s'.disk 0 = s.disk 0 := by
  obtain ⟨c, r, hr⟩ := hs.returns
  obtain ⟨w, hw, hflags⟩ := (kept_flushed s).exec h.flushed hr
  obtain ⟨h0, h1, h2, h3⟩ := hflags (hs.writes w hw)
  exact ⟨⟨h1 rfl, h2 rfl, h3 rfl⟩, h0⟩

/-- **No operation forgets to flush.**  After any run of calls from a synchronised state
the state is synchronised, and mounting its disk gives back the bitmaps and the inodes. -/
theorem synced_of_run (s t : FS g) (h : s.Synced)
    (hrun : Run CleanStep (fun _ a => a.Proper) s t) : t.Synced ∧
      (g.Describes s.image → ∃ m : FS g, fsInit t.image = .ok ⟨g, m⟩ ∧
        (∀ i < g.inodeBits, m.inodeMap i = t.inodeMap i) ∧
        (∀ i < g.blockBits, m.blockMap i = t.blockMap i) ∧
        ∀ i < g.numInodes, m.inodes i = t.inodes i) := by
  have hinv : t.Synced ∧ t.disk 0 = s.disk 0 :=
    hrun.invariant (P := fun t => t.Synced ∧ t.disk 0 = s.disk 0) ⟨h, rfl⟩
      fun u a u' hu _ hstep => by
        obtain ⟨h1, h2⟩ := hu.1.cleanStep hstep
        exact ⟨h1, h2.trans hu.2⟩
  obtain ⟨ht, h0⟩ := hinv
  refine ⟨ht, fun hsb => ⟨mounted g t.image, ht.mounted ?_⟩⟩
  have hblock : t.image.block 0 = s.image.block 0 := h0
  exact ⟨by rw [hblock, hsb.inodeMapSz], by rw [hblock, hsb.blockMapSz], by rw [hblock, hsb.inodeRegSz],
    by rw [hblock, hsb.maxNumBlocks], rfl⟩

/-- `mkdir /a` on a new image writes to blocks of the data region only. -/
theorem synced_of_firstRun : ∃ t, (Mkfs.fresh Mkfs.formattable_256 0).Step
    (.mkdir ⟨[47, 97], by decide⟩ 0x1ED) t ∧ t.Synced := by
  have hend : endsIn (fun t => t.trace.all fun x => (Mkfs.layout Mkfs.formattable_256).startBlock ≤ x)
      ((Mkfs.fresh Mkfs.formattable_256 0).execAll ⟨1000, 1000, 0⟩
        [.mkdir ⟨[47, 97], by decide⟩ 0x1ED]) = true := by
    decide +kernel
  obtain ⟨t, ht, htrace⟩ := exists_of_endsIn hend
  rw [execAll, bind_eq_ok] at ht
  obtain ⟨⟨r, u⟩, hu, ht⟩ := ht
  obtain rfl := Except.ok.inj ht
  have hproper : (Call.mkdir ⟨[47, 97], by decide⟩ 0x1ED).Proper := by decide +kernel
  refine ⟨u, ⟨_, r, hu⟩, (synced_of_run _ u (Mkfs.synced_fresh _ 0)
    (Run.refl.tail hproper ⟨⟨_, r, hu⟩, fun w hw x hx => ?_⟩)).1⟩
  have hnil : (Mkfs.fresh Mkfs.formattable_256 0).trace = [] := rfl
  rw [hnil, List.append_nil] at hw
  subst hw
  simpa using List.all_eq_true.mp htrace x hx

end FS

end Fsx600
