import Fsx600.Spec.Appending
import Fsx600.Spec.Intact
import Fsx600.Spec.Reading
import Fsx600.Properties.Allocation

/-!
# Appending to a file of any size

A write at the end of a file returns what it was given, adds it to the contents and writes
only blocks that were free, the last block of the file and its blocks of pointers.  Past
block 262 this takes that each free block which becomes a level-1 block holds zeros: `fs_write`
clears the buffer for it and then reads the block into that buffer again, without having
written it.  What the block held before is taken for block numbers.

* `fsWrite_append`: appending, when the level-1 blocks are clean; and it is right whatever
  free blocks hold exactly when it takes no level-1 block;
* `not_fsWrite_append`: one byte appended to a file of 262 blocks, where they are not.
-/

namespace Fsx600

open Checked Function GuardedRun Mkfs

namespace FS

variable {g : Layout} {s t u : FS g} {c : Context} {path : Path} {buf : ℕ → UInt8}
  {i n len : ℕ} {L : Block → ℕ → Prop}

/-! ## The path is still there -/

/-- The walk along a path goes through directories in use. -/
def ThroughDirs (s : FS g) : ℕ → List Name → Prop
  | _, [] => True
  | d, n :: rest => s.AllocDir d ∧
    ∀ j, findEntry (s.dirBlock d) n = some j → s.ThroughDirs (s.entry d j).inode.toNat rest

/-- The directories in use have the same inodes and the same blocks. -/
def SameDirs (s t : FS g) : Prop :=
  ∀ d, s.AllocDir d → t.inodes d = s.inodes d ∧ t.dirBlock d = s.dirBlock d

/-- Storing in a file leaves them so. -/
theorem SameDirs.stored (h : SameDirs s t) (hs : t.SoundBlocks) (halloc : ∀ d, s.AllocDir d → t.AllocDir d)
    {σ : Slot} {p : UInt32} {b : Block} (hstored : Stored i σ p b n t u) : SameDirs s u := by
  intro d hd
  obtain ⟨hino, hblock⟩ := h d hd
  have hdi : d ≠ i := by
    rintro rfl
    exact Bool.false_ne_true (hstored.file.symm.trans (halloc d hd).2)
  exact ⟨(hstored.inodes d hdi).trans hino, (hstored.dirBlock hs (halloc d hd)).trans hblock⟩

/-- A walk through them ends as before. -/
theorem SameDirs.translateLoop (h : SameDirs s t) {q : List Name} {k d : ℕ} {r : ℤ}
    (hq : s.ThroughDirs d q) (hr : s.translateLoop k d q = .ok r) : t.translateLoop k d q = .ok r := by
  induction q generalizing k d with
  | nil => exact hr
  | cons name q ih =>
    obtain ⟨hd, hrest⟩ := hq
    obtain ⟨hino, hblock⟩ := h d hd
    unfold dirBlock at hblock
    rw [hino] at hblock
    have hinode : t.inode d = s.inode d := by
      unfold FS.inode
      rw [Int.toNat_natCast, hino]
    unfold FS.translateLoop at hr ⊢
    rw [bind_eq_ok] at hr
    obtain ⟨temp, htemp, hr⟩ := hr
    rw [hinode, htemp, ok_bind]
    obtain ⟨-, -, rfl⟩ := inode_ok htemp
    rw [Int.toNat_natCast] at hr ⊢
    rw [bind_eq_ok] at hr
    obtain ⟨block, hread, hr⟩ := hr
    obtain ⟨hlt, rfl⟩ := readBlock_ok hread
    rw [FS.readBlock, if_pos hlt, ok_bind, hblock]
    have hfold : s.disk ((s.inodes d).directAt 0).toNat = s.dirBlock d := rfl
    rw [hfold] at hr ⊢
    cases hf : findEntry (s.dirBlock d) name with
    | none =>
      rw [hf] at hr
      exact hr
    | some j =>
      rw [hf] at hr
      dsimp only at hr ⊢
      rw [guard_eq_ok] at hr ⊢
      refine ⟨hr.1, ?_⟩
      split
      · next hdir => exact (if_pos hdir).symm.trans hr.2
      · next hdir => exact ih (hrest j hf) ((if_neg hdir).symm.trans hr.2)

/-- The file is still found. -/
theorem SameDirs.finds (h : SameDirs s t) (hq : s.ThroughDirs 1 path.tokens) (hfinds : s.Finds path i) :
    t.Finds path i := by
  have hino := hfinds.inode_eq
  unfold Finds fsGetattr at hfinds ⊢
  rw [bind_eq_ok] at hfinds
  obtain ⟨inum, hinum, hfinds⟩ := hfinds
  have hwalk : t.translatePathToInum path = .ok inum := by
    unfold translatePathToInum at hinum ⊢
    rw [bind_eq_ok] at hinum
    obtain ⟨q, hsplit, hinum⟩ := hinum
    rw [hsplit, ok_bind]
    exact h.translateLoop (Path.split_ok hsplit ▸ hq) hinum
  rw [hwalk, ok_bind]
  split at hfinds
  · simp at hfinds
  · next hcode =>
    rw [bind_eq_ok] at hfinds
    obtain ⟨ino, hino', hfinds⟩ := hfinds
    obtain ⟨h0, hlt, rfl⟩ := inode_ok hino'
    have hi : inum.toNat = i := congrArg Stat.ino (Sum.inr.inj (Except.ok.inj hfinds))
    rw [if_neg hcode, FS.inode, if_pos ⟨h0, hlt⟩, hi]
    rfl

/-! ## What is written -/

/-- Block `b` of the data region was free, or it is the last block of the file, if that is not
full, or one of its blocks of pointers. -/
def OwnOrFree (s : FS g) (i n b : ℕ) : Prop :=
  s.Free b ∨ (n % 1024 ≠ 0 ∧ s.pointer i (dataSlot (n / 1024)) ≠ 0 ∧
      b = (s.pointer i (dataSlot (n / 1024))).toNat) ∨
    ∃ τ : Slot, τ.IsTable ∧ s.pointer i τ ≠ 0 ∧ b = (s.pointer i τ).toNat

theorem OwnOrFree.startBlock_le (hs : s.SoundBlocks) (hi : s.inodeMap i = true) (hf : s.isDir i = false)
    {b : ℕ} (h : s.OwnOrFree i n b) : g.startBlock ≤ b := by
  rcases h with hfree | ⟨-, h0, rfl⟩ | ⟨τ, -, h0, rfl⟩
  · exact hfree.1
  · exact (hs.sound.used (owner_of_pointer hi hf h0)).1
  · exact (hs.sound.used (owner_of_pointer hi hf h0)).1

/-- Since `s`, single blocks were written that were free then, or the file's own. -/
structure Confined (i n : ℕ) (s u : FS g) : Prop where
  free : ∀ b, u.Free b → s.Free b
  pointer : ∀ τ, u.pointer i τ = s.pointer i τ ∨ s.Free (u.pointer i τ).toNat
  trace : ∃ w, u.trace = w ++ s.trace ∧ ∀ b ∈ w, s.OwnOrFree i n b

theorem Confined.refl (i n : ℕ) (s : FS g) : Confined i n s s :=
  ⟨fun _ => id, fun _ => Or.inl rfl, [], rfl, by simp⟩

/-- **Storing** in a slot from the end of the file on. -/
theorem Confined.stored (h : Confined i n s u) (hs : u.SoundBlocks)
    (hmap : ∀ y, s.pointer i (dataSlot y) ≠ 0 → 1024 * y < n) {σ : Slot} {p : UInt32} {b : Block} {m : ℕ}
    (hσ : ∃ y, n / 1024 ≤ y ∧ σ ∈ way y) (hstored : Stored i σ p b m u t) : Confined i n s t := by
  have hsource : (u.pointer i σ = p ∧ p ≠ 0 ∧ ¬ σ.IsTable) ∨ s.Free p.toNat :=
    hstored.source.imp_right fun hnew => h.free _ hnew.2.2.free
  refine ⟨fun x hx => h.free x (hstored.free hs hx), fun τ => ?_, ?_⟩
  · rw [hstored.pointer, update_apply]
    split
    · next heq =>
      subst heq
      rcases hsource with ⟨rfl, -, -⟩ | hfree
      · exact h.pointer τ
      · exact Or.inr hfree
    · exact h.pointer τ
  · obtain ⟨w, hw, hwritten⟩ := h.trace
    obtain ⟨w', hw', hwritten'⟩ := hstored.trace
    refine ⟨w' ++ w, by rw [hw', hw, List.append_assoc], fun x hx => ?_⟩
    rcases List.mem_append.1 hx with hx | hx
    · rcases hwritten' x hx with rfl | ⟨τ, k, hτ, rfl⟩
      · rcases hsource with ⟨hp, h0, hnot⟩ | hfree
        · -- the block was there: it is the last one of the file, or it was free
          rcases h.pointer σ with hsame | hfree
          · obtain ⟨y, hy, hway⟩ := hσ
            rcases List.mem_append.1 hway with htab | hdata
            · exact absurd (isTable_of_mem_tables htab) hnot
            · obtain rfl := List.mem_singleton.1 hdata
              rw [hsame] at hp
              have hlt := hmap y (hp.symm ▸ h0)
              obtain rfl : y = n / 1024 := by omega
              exact Or.inr (Or.inl ⟨by omega, hp.symm ▸ h0, by rw [hp]⟩)
          · exact Or.inl (hp ▸ hfree)
        · exact Or.inl hfree
      · rcases h.pointer τ with hsame | hfree
        · have h0 := hstored.place_ne_zero hτ
          rw [hsame] at h0 ⊢
          exact Or.inr (Or.inr ⟨τ, (Slot.place_eq_some.1 hτ).1, h0, rfl⟩)
        · exact Or.inl hfree
    · exact hwritten x hx

/-! ## What free blocks hold -/

/-- The two states differ at most in what free blocks hold. -/
structure SameButFree (s t : FS g) : Prop where
  inodeMap : t.inodeMap = s.inodeMap
  blockMap : t.blockMap = s.blockMap
  inodes : t.inodes = s.inodes
  disk : ∀ b, ¬ s.Free b → t.disk b = s.disk b

namespace SameButFree

variable (h : SameButFree s t) (hs : s.SoundBlocks)
include h

theorem isDir (k : ℕ) : t.isDir k = s.isDir k := by
  unfold FS.isDir
  rw [h.inodes]

include hs

/-- A block that an inode refers to is not free. -/
theorem disk_of_refers {k : ℕ} (hk : s.inodeMap k = true) {σ : Slot} {b : ℕ} (hb : s.refers k σ = some b) :
    t.disk b = s.disk b :=
  h.disk b fun hfree => hfree.not_inUse (hs.sound.used (owner_eq_some.2 ⟨hk, hb⟩))

theorem owner : t.owner = s.owner := by
  funext ⟨k, σ⟩
  show (if t.inodeMap k = true then t.refers k σ else none) =
    if s.inodeMap k = true then s.refers k σ else none
  rw [h.inodeMap]
  refine ite_congr rfl (fun hk => congrFun (refers_congr (h.isDir k) ?_ ?_ ?_ fun _ τ b hb => ?_) σ)
    fun _ => rfl
  · rw [h.inodes]
  · rw [h.inodes]
  · rw [h.inodes]
  · exact h.disk_of_refers hs hk hb

theorem soundBlocks : t.SoundBlocks := by
  refine ⟨hs.numBlocks_lt, ?_⟩
  have huse : t.InUse = s.InUse := by
    unfold InUse
    rw [h.blockMap]
  rw [h.owner hs, huse]
  exact hs.sound

theorem pointer (hi : s.inodeMap i = true) (hf : s.isDir i = false) : t.pointer i = s.pointer i := by
  refine Inode.pointer_congr ?_ ?_ ?_ fun τ _ h0 => ?_
  · rw [h.inodes]
  · rw [h.inodes]
  · rw [h.inodes]
  · exact h.disk_of_refers hs hi ((refers_eq_some_of_file hf).2 ⟨h0, rfl⟩)

theorem needs (hi : s.inodeMap i = true) (hf : s.isDir i = false) (k x offset : ℕ) :
    t.needs i k x offset len = s.needs i k x offset len := by
  unfold FS.needs
  rw [h.pointer hs hi hf]

theorem sameDirs : SameDirs s t := by
  intro d hd
  unfold dirBlock
  rw [h.inodes]
  exact ⟨rfl, h.disk_of_refers hs hd.1 (refers_of_isDir hd.2)⟩

theorem throughDirs {d : ℕ} {q : List Name} (hq : s.ThroughDirs d q) : t.ThroughDirs d q := by
  induction q generalizing d with
  | nil => trivial
  | cons name q ih =>
    obtain ⟨hd, hrest⟩ := hq
    obtain ⟨-, hblock⟩ := h.sameDirs hs d hd
    refine ⟨⟨(congrFun h.inodeMap d).trans hd.1, (h.isDir d).trans hd.2⟩, fun j hj => ?_⟩
    rw [hblock] at hj
    have hentry : t.entry d j = s.entry d j := by
      unfold FS.entry
      rw [hblock]
    rw [hentry]
    exact ih (hrest j hj)

end SameButFree

/-- Every free block is full of ones. -/
def filled (s : FS g) : FS g :=
  { s with disk := fun b =>
      if g.startBlock ≤ b ∧ b < g.maxNumBlocks ∧ s.blockMap b = false then Block.ofWords fun _ => 0xFFFFFFFF
      else s.disk b }

theorem sameButFree_filled (s : FS g) : SameButFree s s.filled :=
  ⟨rfl, rfl, rfl, fun _ hb => if_neg hb⟩

/-- No image is large enough for that block number. -/
theorem unreadable_filled (s : FS g) : s.filled.Unreadable := by
  intro b hb j hj
  have hdisk : s.filled.disk b = Block.ofWords fun _ => 0xFFFFFFFF := if_pos hb
  have hnblks := g.nblks_lt
  rw [Readable, hdisk, Block.word_ofWords _ hj, not_or, not_lt]
  exact ⟨by decide, le_trans hnblks.le (by decide)⟩

/-! ## Appending -/

/-- `len` bytes were appended to the file `i`, which had `n`. -/
structure Extended (i n : ℕ) (buf : ℕ → UInt8) (len : ℕ) (s t : FS g) : Prop where
  size : (t.inodes i).size.toInt = (n + len : ℕ)
  mapped : ∀ y, t.pointer i (dataSlot y) ≠ 0 ↔ 1024 * y < n + len
  old : ∀ x < n, t.byteAt i x = s.byteAt i x
  new : ∀ x < len, t.byteAt i (n + x) = some (buf x)
  trace : ∃ w, t.trace = w ++ s.trace ∧ ∀ b ∈ w, g.startBlock ≤ b ∧ s.OwnOrFree i n b

/-- A write at the end of the file returns what it was given, and has appended it. -/
def Appends (s : FS g) (c : Context) (path : Path) (buf : ℕ → UInt8) (i n len : ℕ) : Prop :=
  ∃ t, s.fsWrite c path buf len n = .ok ((len : ℤ), t) ∧ Extended i n buf len s t

section Append

variable (hs : s.SoundBlocks) (hi : s.inodeMap i = true) (hf : s.isDir i = false)
  (hsize : (s.inodes i).size.toInt = n) (hmap : ∀ y, s.pointer i (dataSlot y) ≠ 0 ↔ 1024 * y < n)
  (hlen : 0 < len) (hend : n + len ≤ 65798 * 1024)
  (hfree : (s.needs i (65798 - n / 1024) (n / 1024) n len).length ≤ s.freeCount)
  (hsafe : s.TableSafe i n len)
include hs hi hf hsize hmap hlen hend hfree hsafe

/-- The loops of an append. -/
theorem loops_of_append {f : Flow g}
    (hw : Writes L i 65798 (n / 1024) (s.writeVars i buf len n) f) :
    ∃ u, f = .cleanup (len : ℤ) u ∧ u.SoundBlocks ∧ SameDirs s u ∧ u.inodeMap i = true ∧
      u.isDir i = false ∧ Extended i n buf len s u := by
  have hlt : n / 1024 < 65798 := by omega
  have hv := hs.ready_writeVars hi hf buf len n
  have hoffset : (s.writeVars i buf len n).offset = n := if_pos hlt
  have hsplit : 65798 - n / 1024 + n / 1024 = 65798 := by omega
  rw [tableSafe_iff hlt] at hsafe
  have hclean := hw.clean hv hsplit (by rw [hoffset]; exact hsafe)
  -- the bytes of the file, and then those of the buffer
  have hpre : Prefix i (fun x => if x < n then (s.byteAt i x).getD 0 else buf (x - n)) n s := by
    refine ⟨?_, hmap, fun x hx => ?_⟩
    · refine Int32.toInt_inj.1 ?_
      rw [hsize, Int32.toInt_ofNat_of_lt (by omega)]
    · rw [if_pos hx, byteAt_of_pointer ((hmap _).2 (by omega))]
      rfl
  obtain ⟨u, rfl, hgrown⟩ := hclean.append hv hpre rfl (fun _ => by rw [hoffset]) hlen rfl hend le_rfl
    (fun y _ => by
      rw [if_neg (by omega), Nat.add_sub_cancel_left]
      rfl) hsplit (by rw [hoffset]; exact hfree)
  have hgrown' : Prefix i (fun x => if x < n then (s.byteAt i x).getD 0 else buf (x - n)) (n + len) u :=
    hgrown.contents
  obtain ⟨-, hi', hf'⟩ := hclean.keeps_file hv
  obtain ⟨hs', ⟨hsame, -⟩, hconf⟩ := hclean.keeps
    (P := fun u => (SameDirs s u ∧ ∀ d, s.AllocDir d → u.AllocDir d) ∧ Confined i n s u) hv
    ⟨⟨fun _ _ => ⟨rfl, rfl⟩, fun _ => id⟩, .refl i n s⟩ fun hs hσ hP hstored => by
      refine ⟨⟨hP.1.1.stored hs hP.1.2 hstored, fun d hd => ?_⟩,
        hP.2.stored hs (fun y => (hmap y).1) hσ hstored⟩
      rw [AllocDir, hstored.inodeMap, hstored.isDir]
      exact hP.1.2 d hd
  refine ⟨u, ?_, hs', hsame, hi', hf', ?_, hgrown'.mapped, fun x hx => ?_, fun x hx => ?_, ?_⟩
  · show Flow.cleanup ((0 + len : ℕ) : ℤ) u = _
    rw [Nat.zero_add]
  · rw [hgrown'.size, Int32.toInt_ofNat_of_lt (by omega)]
  · rw [hgrown'.byteAt x (by omega), if_pos hx, byteAt_of_pointer ((hmap _).2 (by omega))]
    rfl
  · rw [hgrown'.byteAt (n + x) (by omega), if_neg (by omega), Nat.add_sub_cancel_left]
  · obtain ⟨w, hw, hown⟩ := hconf.trace
    exact ⟨w, hw, fun b hb => ⟨(hown b hb).startBlock_le hs hi hf, hown b hb⟩⟩

/-- Appending is right if the blocks of pointers that it takes are clean. -/
theorem appends_of_tableSafe (hg : g.Sized) (hfinds : s.Finds path i)
    (hdirs : s.ThroughDirs 1 path.tokens) (c : Context) (buf : ℕ → UInt8) :
    s.Appends c path buf i n len := by
  have hlt : n / 1024 < 65798 := by omega
  have hv := hs.ready_writeVars hi hf buf len n
  have hvars : s.writeVars i buf len n = ⟨s, s.inodes i, buf, len, n, 0⟩ := by
    rw [writeVars, if_pos hlt]
  obtain ⟨f, hloops⟩ := hv.writeBlocks_returns hg hlt fun f hw => by
    obtain ⟨u, hu, -⟩ := loops_of_append hs hi hf hsize hmap hlen hend hfree hsafe hw
    exact ⟨_, u, hu⟩
  have hwrites := writeBlocks_writes hv hloops
  rw [if_pos hlt, if_pos hlt] at hwrites
  obtain ⟨u, rfl, hs', hsame, hi', hf', hext⟩ :=
    loops_of_append hs hi hf hsize hmap hlen hend hfree hsafe hwrites
  have hfinds' : u.Finds path i := hsame.finds hdirs hfinds
  refine ⟨(u.setInode i { u.inodes i with mtime := c.now }).writeAllInodes, ?_, ?_⟩
  · have hmode : ¬ sIsDir (s.inodes i).mode = true := Bool.not_eq_true _ ▸ hf
    rw [fsWrite, hfinds, ok_bind]
    dsimp only [fsSetSuperbockAttrs]
    rw [hfinds.inode_eq, ok_bind, if_neg hmode, if_neg (by omega), ← hvars, hloops, ok_bind]
    dsimp only
    rw [writeCleanup, fsUtime, hfinds', ok_bind]
    dsimp only [fsSetSuperbockAttrs]
    rw [hfinds'.inode_eq, ok_bind]
    rfl
  · have hintact := intact_touch hs' hi' hf' i c.now
    have hpointer := pointer_touch hs' hi' hf' i c.now
    refine ⟨?_, fun y => ?_, fun x hx => ?_, fun x hx => ?_, hext.trace⟩
    · rw [hintact.size, hext.size]
    · rw [hpointer]
      exact hext.mapped y
    · rw [hintact.byteAt, hext.old x hx]
    · rw [hintact.byteAt, hext.new x hx]

omit hsafe in
/-- **Appending** to a file of any size is right if the blocks of pointers that it takes are
clean; and it is right whatever free blocks hold exactly when it takes no level-1 block. -/
theorem fsWrite_append (hg : g.Sized) (hfinds : s.Finds path i) (hdirs : s.ThroughDirs 1 path.tokens)
    (c : Context) (buf : ℕ → UInt8) :
    (s.TableSafe i n len → s.Appends c path buf i n len) ∧
      ((∀ t, SameButFree s t → t.Appends c path buf i n len) ↔
        ∀ σ ∈ s.needs i (65798 - n / 1024) (n / 1024) n len, ¬ σ.IsOuter) := by
  have hlt : n / 1024 < 65798 := by omega
  refine ⟨fun hsafe => appends_of_tableSafe hs hi hf hsize hmap hlen hend hfree hsafe hg hfinds hdirs c buf,
    fun hall => ?_, fun hno t ht => ?_⟩
  · -- with every free block full of ones
    have hsame := sameButFree_filled s
    have hs' := hsame.soundBlocks hs
    have hf' : s.filled.isDir i = false := (hsame.isDir i).trans hf
    have hr := ((hsame.sameDirs hs).finds hdirs hfinds).resolve_eq
    obtain ⟨t, ht, -⟩ := hall s.filled hsame
    obtain ⟨-, f, -, htotal, -, hwrites, -⟩ := loops_of_fsWrite hs' hi hr hf' ht
    rw [if_pos hlt] at hwrites
    have hno := hwrites.not_isOuter (hs'.ready_writeVars hi hf' buf len n)
      (Nat.sub_add_cancel hlt.le) le_rfl (unreadable_filled s) (by omega)
    have hoffset : (s.filled.writeVars i buf len n).offset = n := if_pos hlt
    rw [hoffset] at hno
    rwa [← hsame.needs hs hi hf]
  · have hneeds : t.needs i (65798 - n / 1024) (n / 1024) n len =
        s.needs i (65798 - n / 1024) (n / 1024) n len := ht.needs hs hi hf _ _ _
    have hsafe : t.TableSafe i n len := by
      rw [tableSafe_iff hlt, hneeds]
      exact fun y hy houter => absurd houter (hno y.1 (List.of_mem_zip hy).1)
    have hcount : t.freeCount = s.freeCount := by
      unfold freeCount
      rw [ht.blockMap]
    refine appends_of_tableSafe (ht.soundBlocks hs) ((congrFun ht.inodeMap i).trans hi)
      ((ht.isDir i).trans hf) ?_ (fun y => ?_) hlen hend ?_ hsafe hg
      ((ht.sameDirs hs).finds hdirs hfinds) (ht.throughDirs hs hdirs) c buf
    · rw [ht.inodes, hsize]
    · rw [ht.pointer hs hi hf]
      exact hmap y
    · rw [hneeds, hcount]
      exact hfree

end Append

end FS

/-! ## Leftovers -/

/-- The place of a slot among the 263 that a file of 262 blocks uses. -/
def Slot.place262 : Slot → Option ℕ
  | direct k => if k < 6 then some k else none
  | indir1 => some 6
  | level1 k => if k < 256 then some (7 + k) else none
  | indir2 | outer _ | inner _ _ => none

theorem Slot.place262_lt {σ : Slot} {m : ℕ} (h : σ.place262 = some m) : m < 263 := by
  unfold place262 at h
  split at h
  · rw [Option.ite_none_right_eq_some] at h
    have hm := Option.some.inj h.2
    omega
  · have hm := Option.some.inj h
    omega
  · rw [Option.ite_none_right_eq_some] at h
    have hm := Option.some.inj h.2
    omega
  all_goals cases h

theorem Slot.place262_injective {σ τ : Slot} {m : ℕ} (hσ : σ.place262 = some m)
    (hτ : τ.place262 = some m) : σ = τ := by
  have key : ∀ {σ : Slot}, σ.place262 = some m →
      σ = if m < 6 then .direct m else if m = 6 then .indir1 else .level1 (m - 7) := by
    intro σ hσ
    unfold place262 at hσ
    split at hσ
    · obtain ⟨hlt, rfl⟩ : _ ∧ _ = m := by simpa using hσ
      rw [if_pos hlt]
    · obtain rfl := Option.some.inj hσ
      rfl
    · obtain ⟨hlt, rfl⟩ : _ ∧ _ = m := by simpa using hσ
      rw [if_neg (by omega), if_neg (by omega), Nat.add_sub_cancel_left]
    all_goals cases hσ
  exact (key hσ).trans (key hτ).symm

namespace FS

variable {g : Layout} {s t : FS g} {i n b d : ℕ}

/-- **A file is given blocks**: the `n` free blocks from `b` on, each for one slot at most.  The
other inodes and the blocks in use are what they were. -/
theorem SoundBlocks.given (hs : s.SoundBlocks) (hf : s.isDir i = false) {place : Slot → Option ℕ}
    (hfree : ∀ m < n, s.Free (b + m)) (hlt : ∀ σ m, place σ = some m → m < n)
    (hinj : ∀ σ τ m, place σ = some m → place τ = some m → σ = τ) (hmap : t.inodeMap = s.inodeMap)
    (hdir : ∀ k, t.isDir k = s.isDir k) (hino : ∀ k, k ≠ i → t.inodes k = s.inodes k)
    (hbits : ∀ x, t.blockMap x = (s.blockMap x || decide (b ≤ x ∧ x < b + n)))
    (hdisk : ∀ x, s.InUse x → t.disk x = s.disk x)
    (hrefers : ∀ σ x, t.refers i σ = some x → ∃ m, place σ = some m ∧ x = b + m) : t.SoundBlocks := by
  -- the other inodes refer to what they did
  have howner : ∀ {k : ℕ} (σ : Slot), k ≠ i → t.owner (k, σ) = s.owner (k, σ) := by
    intro k σ hk
    unfold owner
    rw [hmap]
    refine ite_congr rfl (fun hk' => ?_) fun _ => rfl
    exact congrFun (refers_congr (hdir k) (by rw [hino k hk]) (by rw [hino k hk]) (by rw [hino k hk])
      fun _ τ x hx => hdisk x (hs.sound.used (owner_eq_some.2 ⟨hk', hx⟩))) σ
  refine ⟨hs.numBlocks_lt, ?_, ?_⟩
  · rintro ⟨k, σ⟩ x hx
    rcases eq_or_ne k i with rfl | hk
    · obtain ⟨m, hm, rfl⟩ := hrefers σ x (owner_eq_some.1 hx).2
      have hmn := hlt σ m hm
      refine ⟨(hfree m hmn).1, (hfree m hmn).2.1, ?_⟩
      rw [hbits]
      simp [hmn]
    · rw [howner σ hk] at hx
      obtain ⟨h1, h2, h3⟩ := hs.sound.used hx
      refine ⟨h1, h2, ?_⟩
      rw [hbits, h3, Bool.true_or]
  · -- two slots of the file, or two others, or one of each
    have hcross : ∀ {k : ℕ} {σ τ : Slot} {x : ℕ}, k ≠ i → t.owner (k, σ) = some x →
        t.owner (i, τ) ≠ some x := by
      intro k σ τ x hk hx hx'
      rw [howner σ hk] at hx
      obtain ⟨m, hm, rfl⟩ := hrefers τ x (owner_eq_some.1 hx').2
      exact (hfree m (hlt τ m hm)).not_inUse (hs.sound.used hx)
    rintro ⟨k, σ⟩ ⟨l, τ⟩ x hx hx'
    rcases eq_or_ne k i with rfl | hk <;> rcases eq_or_ne l k with rfl | hl
    · obtain ⟨m, hm, rfl⟩ := hrefers σ x (owner_eq_some.1 hx).2
      obtain ⟨m', hm', heq⟩ := hrefers τ _ (owner_eq_some.1 hx').2
      obtain rfl : m' = m := by omega
      rw [hinj σ τ m' hm hm']
    · exact absurd hx (hcross hl hx')
    · rw [howner σ hk] at hx
      rw [howner τ hk] at hx'
      exact hs.sound.inj hx hx'
    · rcases eq_or_ne l i with rfl | hli
      · exact absurd hx' (hcross hk hx)
      · rw [howner σ hk] at hx
        rw [howner τ hli] at hx'
        exact hs.sound.inj hx hx'

/-- The file `i` is given the 262 data blocks and the block of pointers that are the blocks
from `b` on, and block `d` is filled with ones. -/
def withBlocks (s : FS g) (i b d : ℕ) : FS g :=
  { s with
    inodes := update s.inodes i { s.inodes i with
      size := 268288, direct := fun k => UInt32.ofNat (b + k), indir1 := UInt32.ofNat (b + 6), indir2 := 0 }
    blockMap := fun x => s.blockMap x || decide (b ≤ x ∧ x < b + 263)
    disk := fun x =>
      if x = b + 6 then Block.ofWords fun k => UInt32.ofNat (b + 7 + k)
      else if x = d then Block.ofWords fun _ => 0xFFFFFFFF
      else s.disk x }

theorem isDir_withBlocks (k : ℕ) : (s.withBlocks i b d).isDir k = s.isDir k :=
  field_update (fun ino => sIsDir ino.mode) (by rfl) k

section WithBlocks

variable (hs : s.SoundBlocks) (hfree : ∀ m < 263, s.Free (b + m))
include hs hfree

theorem toNat_withBlocks {m : ℕ} (hm : m < 263) : (UInt32.ofNat (b + m)).toNat = b + m :=
  toNat_ofNat_of_lt hs.numBlocks_lt (hfree m hm).2.1

theorem ne_zero_withBlocks {m : ℕ} (hm : m < 263) : UInt32.ofNat (b + m) ≠ 0 := by
  refine ne_zero_of_startBlock_le (g := g) ?_
  rw [toNat_withBlocks hs hfree hm]
  exact (hfree m hm).1

/-- What the slots of the file hold. -/
theorem pointer_withBlocks (σ : Slot) : (s.withBlocks i b d).pointer i σ =
    match σ.place262 with
    | some m => UInt32.ofNat (b + m)
    | none => 0 := by
  have hino : (s.withBlocks i b d).inodes i = { s.inodes i with
      size := 268288, direct := fun k => UInt32.ofNat (b + k), indir1 := UInt32.ofNat (b + 6), indir2 := 0 } :=
    update_self ..
  unfold FS.pointer Slot.place262
  rw [hino]
  cases σ with
  | direct k =>
    show (if h : k < 6 then UInt32.ofNat (b + k) else 0) = _
    dsimp only
    split_ifs <;> rfl
  | indir1 => rfl
  | level1 k =>
    show tableWord _ (UInt32.ofNat (b + 6)) k = _
    dsimp only
    split_ifs with hk
    · rw [tableWord_of_ne_zero (ne_zero_withBlocks hs hfree (by omega)), toNat_withBlocks hs hfree (by omega)]
      show (if b + 6 = b + 6 then Block.ofWords fun k => UInt32.ofNat (b + 7 + k) else _).word k = _
      rw [if_pos rfl, Block.word_ofWords _ hk, Nat.add_assoc]
    · exact tableWord_of_le _ _ (not_lt.1 hk)
  | indir2 => rfl
  | outer k => exact tableWord_zero _ _
  | inner j k =>
    show tableWord _ (tableWord _ 0 j) k = 0
    rw [tableWord_zero, tableWord_zero]

/-- The data slots of the file are the first 262. -/
theorem mapped_withBlocks (y : ℕ) :
    (s.withBlocks i b d).pointer i (dataSlot y) ≠ 0 ↔ 1024 * y < 268288 := by
  rw [pointer_withBlocks hs hfree]
  unfold dataSlot Slot.place262
  split_ifs with h6 h262
  · dsimp only
    rw [if_pos h6]
    exact iff_of_true (ne_zero_withBlocks hs hfree (by omega)) (by omega)
  · dsimp only
    rw [if_pos (by omega)]
    exact iff_of_true (ne_zero_withBlocks hs hfree (by omega)) (by omega)
  · exact iff_of_false (fun h => h rfl) (by omega)

/-- A block that a slot of the file holds. -/
theorem refers_withBlocks (hf : s.isDir i = false) {σ : Slot} {x : ℕ}
    (h : (s.withBlocks i b d).refers i σ = some x) : ∃ m, σ.place262 = some m ∧ x = b + m := by
  obtain ⟨h0, rfl⟩ := (refers_of_file ((isDir_withBlocks i).trans hf)).1 h
  have hp := pointer_withBlocks (i := i) (d := d) hs hfree σ
  cases hm : σ.place262 with
  | none =>
    rw [hm] at hp
    exact absurd hp h0
  | some m =>
    rw [hm] at hp
    exact ⟨m, rfl, by rw [hp, toNat_withBlocks hs hfree (Slot.place262_lt hm)]⟩

variable (hd : s.Free d)
include hd

theorem soundBlocks_withBlocks (hf : s.isDir i = false) : (s.withBlocks i b d).SoundBlocks := by
  refine hs.given hf hfree (fun _ _ => Slot.place262_lt) (fun _ _ _ => Slot.place262_injective) rfl
    isDir_withBlocks (fun k hk => update_of_ne hk ..) (fun _ => rfl) (fun x hx => ?_)
    fun σ x => refers_withBlocks hs hfree hf
  have h6 : x ≠ b + 6 := by
    rintro rfl
    exact (hfree 6 (by omega)).not_inUse hx
  have hxd : x ≠ d := by
    rintro rfl
    exact hd.not_inUse hx
  exact (if_neg h6).trans (if_neg hxd)

end WithBlocks

/-- The directories are not touched. -/
theorem sameDirs_withBlocks (hwf : Wf s) (hfree : ∀ m < 263, s.Free (b + m)) (hd : s.Free d)
    (hf : s.isDir i = false) : SameDirs s (s.withBlocks i b d) := by
  intro k hk
  have hki : k ≠ i := by
    rintro rfl
    exact Bool.false_ne_true (hf.symm.trans hk.2)
  have hino : (s.withBlocks i b d).inodes k = s.inodes k := update_of_ne hki ..
  have huse := hwf.dirBlock_inUse hk
  refine ⟨hino, ?_⟩
  have h6 : ((s.inodes k).directAt 0).toNat ≠ b + 6 := by
    intro heq
    exact (hfree 6 (by omega)).not_inUse (heq ▸ huse)
  have hkd : ((s.inodes k).directAt 0).toNat ≠ d := by
    intro heq
    exact hd.not_inUse (heq ▸ huse)
  unfold dirBlock
  rw [hino]
  exact (if_neg h6).trans (if_neg hkd)

/-- An image with room for a file that goes past block 262. -/
theorem formattable_600 : Formattable 600 := by decide

/-- The file `/a` of a new image, with the blocks from 300 on. -/
theorem withBlocks_of_run {s : FS (layout formattable_600)} {d : ℕ}
    (hs : (fresh formattable_600 0).guardedAll ⟨1000, 1000, 0⟩ FilesGuard
      [.mknod ⟨[47, 97], by decide⟩ 0x81A4] = some s) (hf : s.isDir 2 = false)
    (hr : s.resolve 1 (Path.tokens ⟨[47, 97], by decide⟩) = .inr 2)
    (hclear : ∀ m < 263, s.blockMap (300 + m) = false) (hd : s.Free d) :
    (layout formattable_600).Sized ∧ (s.withBlocks 2 300 d).SoundBlocks ∧
      (∀ y, (s.withBlocks 2 300 d).pointer 2 (dataSlot y) ≠ 0 ↔ 1024 * y < 268288) ∧
      (s.withBlocks 2 300 d).Finds ⟨[47, 97], by decide⟩ 2 ∧
      (s.withBlocks 2 300 d).ThroughDirs 1 (Path.tokens ⟨[47, 97], by decide⟩) := by
  have hwf : Wf s := wf_of_run (run_of_guardedAll hs)
  have hfree : ∀ m < 263, s.Free (300 + m) := by
    intro m hm
    refine ⟨le_trans (by decide +kernel) (Nat.le_add_right 300 m), ?_, hclear m hm⟩
    show 300 + m < 600
    omega
  have hfinds : s.Finds ⟨[47, 97], by decide⟩ 2 :=
    WellFormed.finds ⟨hwf, by decide +kernel⟩ (by decide +kernel) hr
  have hdirs : s.ThroughDirs 1 (Path.tokens ⟨[47, 97], by decide⟩) :=
    ⟨⟨hwf.bit_one, hwf.root_isDir⟩, fun _ _ => trivial⟩
  exact ⟨hwf.sized, soundBlocks_withBlocks hwf.blocks hfree hd hf, mapped_withBlocks hwf.blocks hfree,
    (sameDirs_withBlocks hwf hfree hd hf).finds hdirs hfinds,
    ⟨⟨hwf.bit_one, (isDir_withBlocks 1).trans hwf.root_isDir⟩, fun _ _ => trivial⟩⟩

/-- A byte is appended to a file of 262 blocks.  Here the leftovers are in a block that it does
not come to; but it takes a level-1 block, and they could be there. -/
theorem fsWrite_append_262 : ∃ s, (fresh formattable_600 0).guardedAll ⟨1000, 1000, 0⟩ FilesGuard
    [.mknod ⟨[47, 97], by decide⟩ 0x81A4] = some s ∧
      (s.withBlocks 2 300 20).Appends ⟨1000, 1000, 0⟩ ⟨[47, 97], by decide⟩ (fun _ => 1) 2 268288 1 ∧
        ¬ ∀ t, SameButFree (s.withBlocks 2 300 20) t →
          t.Appends ⟨1000, 1000, 0⟩ ⟨[47, 97], by decide⟩ (fun _ => 1) 2 268288 1 := by
  have hend : ((fresh formattable_600 0).guardedAll ⟨1000, 1000, 0⟩ FilesGuard
      [.mknod ⟨[47, 97], by decide⟩ 0x81A4]).any (fun s => s.inodeMap 2 && !s.isDir 2 &&
        decide (s.resolve 1 (Path.tokens ⟨[47, 97], by decide⟩) = .inr 2) &&
          ((List.range 263).all fun m => !s.blockMap (300 + m)) && !s.blockMap 20 &&
          decide (((s.withBlocks 2 300 20).needs 2 65536 262 268288 1).length ≤
            (s.withBlocks 2 300 20).freeCount) &&
          decide ((s.withBlocks 2 300 20).TableSafe 2 268288 1) &&
          decide (.outer 0 ∈ (s.withBlocks 2 300 20).needs 2 65536 262 268288 1)) = true := by
    decide +kernel
  obtain ⟨s, hs, htest⟩ := (Option.any_eq_true _ _).mp hend
  simp only [Bool.and_eq_true, Bool.not_eq_true', decide_eq_true_eq, List.all_eq_true,
    List.mem_range] at htest
  obtain ⟨⟨⟨⟨⟨⟨⟨hi, hf⟩, hr⟩, hclear⟩, hclear'⟩, hcost⟩, hsafe⟩, houter⟩ := htest
  obtain ⟨hg, hsound, hmap, hfinds, hdirs⟩ := withBlocks_of_run (d := 20) hs hf hr hclear
    ⟨by decide +kernel, by decide +kernel, hclear'⟩
  obtain ⟨happ, hiff⟩ := fsWrite_append hsound hi ((isDir_withBlocks 2).trans hf)
    (show ((s.withBlocks 2 300 20).inodes 2).size.toInt = (268288 : ℕ) from rfl) hmap
    (show 0 < 1 by decide) (by decide) hcost hg hfinds hdirs ⟨1000, 1000, 0⟩ fun _ => 1
  exact ⟨s, hs, happ hsafe, fun hall => hiff.1 hall _ houter trivial⟩

/-- A file of 262 blocks, and the second free block full of ones: one byte is appended to the
file, and `fs_write` takes the ones for the number of a block. -/
theorem not_fsWrite_append : ¬ ∀ (g : Layout) (s : FS g) (c : Context) (path : Path) (buf : ℕ → UInt8)
    (i n len : ℕ), g.Sized → s.SoundBlocks → s.inodeMap i = true → sIsReg (s.inodes i).mode = true →
      (s.inodes i).size.toInt = n → (∀ y, s.pointer i (dataSlot y) ≠ 0 ↔ 1024 * y < n) → 0 < len →
      262 * 1024 < n + len → n + len ≤ 65798 * 1024 →
      (s.needs i (65798 - n / 1024) (n / 1024) n len).length ≤ s.freeCount → s.Finds path i →
      s.ThroughDirs 1 path.tokens → s.Appends c path buf i n len := by
  intro hall
  have hend : ((fresh formattable_600 0).guardedAll ⟨1000, 1000, 0⟩ FilesGuard
      [.mknod ⟨[47, 97], by decide⟩ 0x81A4]).any (fun s => s.inodeMap 2 && sIsReg (s.inodes 2).mode &&
        !s.isDir 2 && decide (s.resolve 1 (Path.tokens ⟨[47, 97], by decide⟩) = .inr 2) &&
          ((List.range 263).all fun m => !s.blockMap (300 + m)) && !s.blockMap 15 &&
          decide (((s.withBlocks 2 300 15).needs 2 65536 262 268288 1).length ≤
            (s.withBlocks 2 300 15).freeCount) &&
          returned ((s.withBlocks 2 300 15).fsWrite ⟨1000, 1000, 0⟩ ⟨[47, 97], by decide⟩
            (fun _ => 1) 1 268288) == none) = true := by
    decide +kernel
  obtain ⟨s, hs, htest⟩ := (Option.any_eq_true _ _).mp hend
  simp only [Bool.and_eq_true, Bool.not_eq_true', beq_iff_eq, decide_eq_true_eq, List.all_eq_true,
    List.mem_range] at htest
  obtain ⟨⟨⟨⟨⟨⟨⟨hi, hreg⟩, hf⟩, hr⟩, hclear⟩, hclear'⟩, hcost⟩, hret⟩ := htest
  obtain ⟨hg, hsound, hmap, hfinds, hdirs⟩ := withBlocks_of_run (d := 15) hs hf hr hclear
    ⟨by decide +kernel, by decide +kernel, hclear'⟩
  obtain ⟨t, ht, -⟩ := hall _ (s.withBlocks 2 300 15) ⟨1000, 1000, 0⟩ _ (fun _ => 1) 2 268288 1 hg hsound
    hi hreg rfl hmap (by decide) (by decide) (by decide) hcost hfinds hdirs
  rw [ht] at hret
  exact Option.some_ne_none _ hret

end FS

end Fsx600
