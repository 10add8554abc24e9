import Fsx600.Spec.Storing

/-!
# Writing as passes over the data slots

The three loops of `fs_write`, the `goto`s into them and the fall-through between them come
to one thing: the data slots of the file are visited in order, and each pass stores one block.
`Writes` says so, with one constructor for each thing that can happen at data slot `x`:

* a block of pointers that is missing on the way to the slot is taken (`table`);
* there is no free block for it, or for the slot itself (`full`);
* a block is filled and that was the last (`last`), or it was not (`pass`);
* all slots up to `stop` are behind (`done`).

`dirty` is the exit for the one case in which little can be said: the new level-1 block is
not filled with zeros, so the file now holds whatever blocks it happens to name.  If the write
returns, the first of them can be read.

`writeBlocks_writes` reads this off the loops.
-/

namespace Fsx600

open Checked Function

namespace Slot

/-- A slot of `indir_2`: it holds a level-1 block. -/
def IsOuter : Slot → Prop
  | outer _ => True
  | direct _ | indir1 | level1 _ | indir2 | inner _ _ => False

instance : (σ : Slot) → Decidable σ.IsOuter
  | outer _ => inferInstanceAs (Decidable True)
  | direct _ | indir1 | level1 _ | indir2 | inner _ _ => inferInstanceAs (Decidable False)

theorem not_isOuter_dataSlot (x : ℕ) : ¬ (dataSlot x).IsOuter := by
  unfold dataSlot
  split_ifs <;> exact id

end Slot

namespace FS

variable {g : Layout} {inum stop x n i j k : ℕ} {v w : WriteVars g} {f f' : Flow g} {s t : FS g}
  {σ : Slot} {p : UInt32} {block base : Block} {start : ℕ} {L : Block → ℕ → Prop}

/-- The blocks of pointers on the way to data slot `x`. -/
def tables (x : ℕ) : List Slot :=
  if x < 6 then [] else if x < 262 then [.indir1] else [.indir2, .outer ((x - 262) / 256)]

theorem indir1_mem_tables (hx : 6 ≤ x) (hlt : x < 262) : Slot.indir1 ∈ tables x := by
  rw [tables, if_neg (by omega), if_pos hlt]
  exact List.mem_singleton_self _

theorem indir2_mem_tables (hx : 262 ≤ x) : Slot.indir2 ∈ tables x := by
  rw [tables, if_neg (by omega), if_neg (by omega)]
  exact List.mem_cons_self

theorem outer_mem_tables (hx : 262 ≤ x) : Slot.outer ((x - 262) / 256) ∈ tables x := by
  rw [tables, if_neg (by omega), if_neg (by omega)]
  exact List.mem_cons_of_mem _ (List.mem_singleton_self _)

/-- The local variables of a write to the file `inum`, whose inode is stored. -/
structure Ready (inum : ℕ) (v : WriteVars g) : Prop where
  blocks : v.fs.SoundBlocks
  alloc : v.fs.inodeMap inum = true
  file : v.fs.isDir inum = false
  inode : v.inode = v.fs.inodes inum

/-- The local inode has the pointers of the stored one. -/
theorem Ready.pointer (hv : Ready inum v) (σ : Slot) :
    v.inode.pointer v.fs.disk σ = v.fs.pointer inum σ := by
  rw [hv.inode]
  rfl

/-- A pass at data slot `x`: block `p`, with the contents `base` so far, is filled from byte
`start` on. -/
structure Pass (inum x : ℕ) (p : UInt32) (base : Block) (start : ℕ) (v w : WriteVars g) : Prop where
  head : (v.fs.pointer inum (dataSlot x) = 0 ∧ start = 0 ∧ base = Block.zero) ∨
    (v.fs.pointer inum (dataSlot x) ≠ 0 ∧ start = v.offset % 1024 ∧
      base = v.fs.disk (v.fs.pointer inum (dataSlot x)).toNat)
  stored : Stored inum (dataSlot x) p (passBlock v base start) (fillCount v.len start) v.fs w.fs
  ready : Ready inum w
  len : w.len = v.len - fillCount v.len start
  buf : w.buf = fun y => v.buf (fillCount v.len start + y)
  total : w.total = v.total + fillCount v.len start
  offset : w.offset = if x < 262 ∧ start = 0 then 0 else v.offset

/-- The slot `σ` gets an empty block of pointers, `p`. -/
structure Tabled (inum : ℕ) (σ : Slot) (p : UInt32) (v w : WriteVars g) : Prop where
  empty : v.fs.pointer inum σ = 0
  stored : Stored inum σ p Block.zero 0 v.fs w.fs
  ready : Ready inum w
  len : w.len = v.len
  buf : w.buf = v.buf
  total : w.total = v.total
  offset : w.offset = v.offset

/-- The first two loops leave with `offset = 0`. -/
def resume (x : ℕ) (v : WriteVars g) : WriteVars g :=
  if x = 6 ∨ x = 262 then { v with offset := 0 } else v

section

variable (x : ℕ) (v : WriteVars g)

@[simp] theorem resume_fs : (resume x v).fs = v.fs := by
  unfold resume
  split <;> rfl

@[simp] theorem resume_len : (resume x v).len = v.len := by
  unfold resume
  split <;> rfl

@[simp] theorem resume_buf : (resume x v).buf = v.buf := by
  unfold resume
  split <;> rfl

@[simp] theorem resume_total : (resume x v).total = v.total := by
  unfold resume
  split <;> rfl

end

/-- The word holds nothing, or the number of a block of the image. -/
def Readable (g : Layout) (b : Block) (j : ℕ) : Prop := b.word j = 0 ∨ (b.word j).toNat < g.nblks

/-- What a write does from data slot `x` up to `stop`.  `L` is what is known of the leftovers in
a level-1 block and of the word in it that the write comes to first. -/
inductive Writes (L : Block → ℕ → Prop) (inum stop : ℕ) : ℕ → WriteVars g → Flow g → Prop
  | table {x : ℕ} {σ : Slot} {p : UInt32} {v w : WriteVars g} {f : Flow g} (hσ : σ ∈ tables x)
      (ht : Tabled inum σ p v w) (hclean : σ.IsOuter → v.fs.disk p.toNat = Block.zero)
      (h : Writes L inum stop x w f) : Writes L inum stop x v f
  | full {x : ℕ} {σ : Slot} {v : WriteVars g} (hlt : x < 65798) (hσ : σ ∈ tables x ∨ σ = dataSlot x)
      (h0 : v.fs.pointer inum σ = 0) (hfull : ∀ b, ¬ v.fs.Free b) :
      Writes L inum stop x v (.cleanup (-ENOSPC) v.fs)
  | dirty {x b : ℕ} {v : WriteVars g} {f : Flow g} (hx : 262 ≤ x) (hlt : x < 65798)
      (h2 : v.fs.pointer inum .indir2 ≠ 0)
      (h0 : v.fs.pointer inum (.outer ((x - 262) / 256)) = 0) (hb : v.fs.LowestFree b)
      (hd : v.fs.disk b ≠ Block.zero) (hL : L (v.fs.disk b) ((x - 262) % 256)) :
      Writes L inum stop x v f
  | last {x : ℕ} {p : UInt32} {base : Block} {start : ℕ} {v w : WriteVars g}
      (hp : Pass inum x p base start v w) (hlen : w.len = 0) :
      Writes L inum stop x v (.cleanup w.total w.fs)
  | pass {x : ℕ} {p : UInt32} {base : Block} {start : ℕ} {v w : WriteVars g} {f : Flow g}
      (hp : Pass inum x p base start v w) (hlen : w.len ≠ 0)
      (h : Writes L inum stop (x + 1) (resume (x + 1) w) f) : Writes L inum stop x v f
  | done {v : WriteVars g} : Writes L inum stop stop v (.next v)

/-! ## The head of a pass -/

/-- What `slotBlock` leaves: a block for the slot, and nothing changed but its bit. -/
structure Head (v : WriteVars g) (q p : UInt32) (block : Block) (start : ℕ) (t : FS g) : Prop where
  source : (q = p ∧ p ≠ 0) ∨ (q = 0 ∧ p ≠ 0 ∧ v.fs.LowestFree p.toNat)
  base : (q = 0 ∧ start = 0 ∧ block = Block.zero) ∨
    (q ≠ 0 ∧ start = v.offset % 1024 ∧ block = v.fs.disk q.toNat)
  inodeMap : t.inodeMap = v.fs.inodeMap
  inodes : t.inodes = v.fs.inodes
  blockMap : (t.blockMap = v.fs.blockMap ∧ q ≠ 0) ∨ t.blockMap = update v.fs.blockMap p.toNat true
  disk : ∀ x, g.startBlock ≤ x → t.disk x = v.fs.disk x
  trace : t.trace = v.fs.trace

/-- The number of a new block, in a pointer. -/
theorem SoundBlocks.lowestFree_toNat (hs : s.SoundBlocks) {b : ℕ} (hb : s.LowestFree b) :
    UInt32.ofNat b ≠ 0 ∧ s.LowestFree (UInt32.ofNat b).toNat := by
  have htoNat := toNat_ofNat_of_lt hs.numBlocks_lt hb.free.2.1
  exact ⟨ne_zero_of_startBlock_le (htoNat.symm ▸ hb.free.1), htoNat.symm ▸ hb⟩

theorem SlotBlock.head (hs : v.fs.SoundBlocks) {q : UInt32} (h : SlotBlock v q (some (p, block, start, t))) :
    Head v q p block start t := by
  cases h with
  | fresh hq hb =>
    obtain ⟨h0, hlow⟩ := hs.lowestFree_toNat hb
    have htoNat := toNat_ofNat_of_lt hs.numBlocks_lt hb.free.2.1
    exact ⟨Or.inr ⟨hq, h0, hlow⟩, Or.inl ⟨hq, rfl, rfl⟩, rfl, rfl,
      Or.inr (by rw [htoNat, blockMap_takeBlock]), fun x hx => disk_takeBlock _ _ hx, rfl⟩
  | mapped hq => exact ⟨Or.inl ⟨rfl, hq⟩, Or.inr ⟨hq, rfl, rfl⟩, rfl, rfl, Or.inl ⟨rfl, hq⟩, fun _ _ => rfl,
      rfl⟩

/-- Storing keeps the local variables ready if the local inode is the one stored. -/
theorem Ready.stored (hv : Ready inum v) {b : Block} (h : Stored inum σ p b n v.fs w.fs)
    (hi : w.inode = w.fs.inodes inum) : Ready inum w where
  blocks := h.blocks hv.blocks
  alloc := by rw [h.inodeMap, hv.alloc]
  file := by rw [h.isDir, hv.file]
  inode := hi

theorem Ready.resume (hv : Ready inum v) (x : ℕ) : Ready inum (resume x v) := by
  rw [FS.resume]
  split
  · exact ⟨hv.blocks, hv.alloc, hv.file, hv.inode⟩
  · exact hv

/-- **One pass**, of whichever loop: `last` writes the block, and the block of pointers that
the slot stands in. -/
theorem Ready.pass (hv : Ready inum v) (hx : (dataSlot x).Exists)
    (hh : Head v (v.fs.pointer inum (dataSlot x)) p block start t) {ino : Inode} {offset : ℕ}
    {last : FS g → FS g} (hmode : ino.mode = v.inode.mode) (hsize : ino.size = v.inode.size)
    (hdirect : ino.direct = (v.inode.setPointer p (dataSlot x)).direct)
    (h1 : ino.indir1 = (v.inode.setPointer p (dataSlot x)).indir1)
    (h2 : ino.indir2 = (v.inode.setPointer p (dataSlot x)).indir2)
    (hlast : ∀ u, (last u).inodeMap = u.inodeMap ∧ (last u).blockMap = u.blockMap ∧
      (last u).inodes = u.inodes)
    (hcontent : ∀ u, (last u).disk p.toNat = passBlock v block start)
    (htable : ∀ τ k, (dataSlot x).place = some (τ, k) → v.fs.pointer inum τ ≠ 0 ∧
      ∀ u, (last u).disk (v.fs.pointer inum τ).toNat =
        (v.fs.disk (v.fs.pointer inum τ).toNat).setWord k p)
    (hframe : ∀ u y, y ≠ p.toNat →
      (∀ τ k, (dataSlot x).place = some (τ, k) → y ≠ (v.fs.pointer inum τ).toNat) →
      (last u).disk y = u.disk y)
    (htrace : ∃ w, (∀ u, (last u).trace = w ++ u.trace) ∧ ∀ y ∈ w, y = p.toNat ∨
      ∃ τ k, (dataSlot x).place = some (τ, k) ∧ y = (v.fs.pointer inum τ).toNat)
    (hoffset : offset = if x < 262 ∧ start = 0 then 0 else v.offset) :
    Pass inum x p block start v (FS.pass inum v ino offset start t last) := by
  have hinodes : (FS.pass inum v ino offset start t last).fs.inodes =
      update v.fs.inodes inum (FS.pass inum v ino offset start t last).inode := by
    rw [pass_fs, (hlast _).2.2, inodes_writeAllInodes, inodes_setInode, hh.inodes]
  have hstored : Stored inum (dataSlot x) p (passBlock v block start) (fillCount v.len start) v.fs
      (FS.pass inum v ino offset start t last).fs := by
    refine hv.blocks.stored hv.alloc hv.file hx ?_ ?_ hinodes ?_ ?_ ?_ ?_ ?_ ?_ ?_ ?_ ?_ ?_ ?_
    · exact hh.source.imp_left fun h => ⟨h.1, h.2, not_isTable_dataSlot x⟩
    · rw [pass_fs, (hlast _).1, inodeMap_writeAllInodes, inodeMap_setInode, hh.inodeMap]
    · rw [pass_inode, ← hv.inode, ← hmode]
    · rw [pass_inode, ← hv.inode, ← hsize]
    · rw [pass_inode, ← hv.inode, ← hdirect]
    · rw [pass_inode, ← hv.inode, ← h1]
    · rw [pass_inode, ← hv.inode, ← h2]
    · rw [pass_fs, (hlast _).2.1, blockMap_writeAllInodes, blockMap_setInode]
      exact hh.blockMap
    · exact hcontent _
    · exact fun h => absurd h (not_isTable_dataSlot x)
    · exact fun τ k hτ => ⟨(htable τ k hτ).1, (htable τ k hτ).2 _⟩
    · intro y hy hyp hyτ
      rw [pass_fs, hframe _ y hyp hyτ, disk_writeAllInodes _ hy, disk_setInode, hh.disk y hy]
    · obtain ⟨w, hw, hwritten⟩ := htrace
      exact ⟨w, (hw _).trans (congrArg (w ++ ·) hh.trace), hwritten⟩
  exact ⟨hh.base, hstored, hv.stored hstored (by rw [hinodes, update_self]), rfl, rfl, rfl, hoffset⟩

theorem dataSlot_direct (hx : x < 6) : dataSlot x = .direct x := by
  rw [dataSlot, if_pos hx]

theorem dataSlot_level1 (hk : k < 256) : dataSlot (k + 6) = .level1 k := by
  rw [dataSlot, if_neg (by omega), if_pos (by omega), Nat.add_sub_cancel]

theorem dataSlot_inner (hk : k < 256) : dataSlot (262 + 256 * i + k) = .inner i k := by
  have hdiv : (262 + 256 * i + k - 262) / 256 = i := by omega
  have hmod : (262 + 256 * i + k - 262) % 256 = k := by omega
  rw [dataSlot, if_neg (by omega), if_neg (by omega), hdiv, hmod]

/-- `table` is the local copy of the block of pointers in the slot `τ`. -/
structure Buffered (inum : ℕ) (τ : Slot) (table : Block) (s : FS g) : Prop where
  isTable : τ.IsTable
  ne_zero : s.pointer inum τ ≠ 0
  word : ∀ m, table.word m = s.pointer inum (τ.child m)

theorem buffered_disk {τ : Slot} (hτ : τ.IsTable) (h0 : s.pointer inum τ ≠ 0) :
    Buffered inum τ (s.disk (s.pointer inum τ).toNat) s := by
  refine ⟨hτ, h0, fun m => ?_⟩
  show _ = (s.inodes inum).pointer s.disk (τ.child m)
  rw [Inode.pointer_child _ _ hτ, ← tableWord_of_ne_zero h0]
  rfl

namespace Buffered

variable {τ : Slot} {table : Block} {s' : FS g} {b : Block}

theorem eq_disk (h : Buffered inum τ table s) : table = s.disk (s.pointer inum τ).toNat :=
  Block.ext_word fun m => (h.word m).trans ((buffered_disk h.isTable h.ne_zero).word m).symm

/-- The copy follows when a slot in the block of pointers is stored. -/
theorem setWord (h : Buffered inum τ table s) (hk : k < 256)
    (hs : Stored inum (τ.child k) p b n s s') : Buffered inum τ (table.setWord k p) s' where
  isTable := h.isTable
  ne_zero := by
    rw [hs.pointer, update_of_ne (Slot.child_ne_self h.isTable k).symm]
    exact h.ne_zero
  word := fun m => by
    rw [hs.pointer]
    rcases eq_or_ne m k with rfl | hm
    · rw [update_self, Block.word_setWord_self _ _ hk]
    · rw [update_of_ne fun heq => hm (Slot.child_injective h.isTable heq),
        Block.word_setWord_of_ne _ _ hm, h.word]

end Buffered

/-- The block of a pass is not the block of pointers that its slot stands in. -/
theorem Ready.table_ne (hv : Ready inum v)
    (hh : Head v (v.fs.pointer inum (dataSlot x)) p block start t) {τ : Slot} {table : Block}
    (htab : Buffered inum τ table v.fs) : (v.fs.pointer inum τ).toNat ≠ p.toNat := by
  refine hv.blocks.source_ne (σ := dataSlot x) hv.alloc hv.file ?_
    (owner_of_pointer hv.alloc hv.file htab.ne_zero) ?_
  · exact hh.source.imp_left fun h => ⟨h.1, h.2, not_isTable_dataSlot x⟩
  · intro heq
    obtain rfl : τ = dataSlot x := (Prod.mk.inj heq).2
    exact not_isTable_dataSlot x htab.isTable

/-- A pass of the loop over the direct blocks. -/
theorem Ready.passDirect (hv : Ready inum v) (hi : i < 6)
    (hb : SlotBlock v (v.inode.directAt i) (some (p, block, start, t))) :
    Pass inum i p block start v (FS.passDirect inum i v p block start t) := by
  have hslot := dataSlot_direct hi
  have hq : v.inode.directAt i = v.fs.pointer inum (dataSlot i) := by
    rw [hslot]
    exact hv.pointer (.direct i)
  have hh := hb.head hv.blocks
  rw [hq] at hh
  refine hv.pass (by rw [hslot]; exact hi) hh rfl rfl ?_ ?_ ?_ (fun _ => ⟨rfl, rfl, rfl⟩) (fun u => ?_)
    ?_ (fun u y hy _ => ?_) ⟨[p.toNat], fun _ => rfl, fun y hy => Or.inl (List.mem_singleton.1 hy)⟩ ?_
  · rw [hslot]
    rfl
  · rw [hslot]
    rfl
  · rw [hslot]
    rfl
  · rw [disk_putBlock, if_pos rfl]
  · intro τ k hτ
    rw [hslot] at hτ
    exact absurd hτ (by simp [Slot.place])
  · rw [disk_putBlock, if_neg hy]
  · exact if_congr (by omega) rfl rfl

/-- A pass of the loop over the entries of `indir_1`. -/
theorem Ready.passLevel1 (hv : Ready inum v) (hk : k < 256) {indirect1 : Block}
    (htab : Buffered inum .indir1 indirect1 v.fs) (hb : SlotBlock v (indirect1.word k) (some (p, block, start, t))) :
    Pass inum (k + 6) p block start v (FS.passLevel1 inum k indirect1 v p block start t) := by
  have hslot := dataSlot_level1 hk
  have hq : indirect1.word k = v.fs.pointer inum (dataSlot (k + 6)) := by
    rw [hslot]
    exact htab.word k
  have hh := hb.head hv.blocks
  rw [hq] at hh
  have hino : v.inode.indir1 = v.fs.pointer inum .indir1 := hv.pointer .indir1
  have hne := hv.table_ne hh htab
  refine hv.pass (by rw [hslot]; exact hk) hh rfl rfl ?_ ?_ ?_ (fun _ => ⟨rfl, rfl, rfl⟩) (fun u => ?_)
    ?_ (fun u y hy hyτ => ?_) ⟨[p.toNat, v.inode.indir1.toNat], fun _ => rfl, fun y hy => ?_⟩ ?_
  · rw [hslot]
    rfl
  · rw [hslot]
    rfl
  · rw [hslot]
    rfl
  · rw [disk_putBlock, if_pos rfl]
  · intro τ m hτ
    rw [hslot, Slot.place, Option.some.injEq, Prod.mk.injEq] at hτ
    obtain ⟨rfl, rfl⟩ := hτ
    refine ⟨htab.ne_zero, fun u => ?_⟩
    rw [disk_putBlock, if_neg hne, disk_putBlock, hino, if_pos rfl, ← htab.eq_disk]
  · have hy1 := hyτ .indir1 k (by rw [hslot]; rfl)
    rw [disk_putBlock, if_neg hy, disk_putBlock, hino, if_neg hy1]
  · rcases List.mem_pair.1 hy with rfl | rfl
    · exact Or.inl rfl
    · exact Or.inr ⟨.indir1, k, by rw [hslot]; rfl, by rw [hino]⟩
  · exact if_congr (by omega) rfl rfl

/-- A pass of the loop over the entries of a level-1 block. -/
theorem Ready.passInner (hv : Ready inum v) (hk : k < 256) {indirect1 : Block}
    (htab : Buffered inum (.outer i) indirect1 v.fs) (hb : SlotBlock v (indirect1.word k) (some (p, block, start, t))) :
    Pass inum (262 + 256 * i + k) p block start v
      (FS.passInner inum k (v.fs.pointer inum (.outer i)) indirect1 v p block start t) := by
  have hslot : dataSlot (262 + 256 * i + k) = .inner i k := dataSlot_inner hk
  have hq : indirect1.word k = v.fs.pointer inum (dataSlot (262 + 256 * i + k)) := by
    rw [hslot]
    exact htab.word k
  have hh := hb.head hv.blocks
  rw [hq] at hh
  have hne := hv.table_ne hh htab
  refine hv.pass (by rw [hslot]; exact hk) hh rfl rfl ?_ ?_ ?_ (fun _ => ⟨rfl, rfl, rfl⟩) (fun u => ?_)
    ?_ (fun u y hy hyτ => ?_)
    ⟨[(v.fs.pointer inum (.outer i)).toNat, p.toNat], fun _ => rfl, fun y hy => ?_⟩ ?_
  · rw [hslot]
    rfl
  · rw [hslot]
    rfl
  · rw [hslot]
    rfl
  · rw [disk_putBlock, if_neg hne.symm, disk_putBlock, if_pos rfl]
  · intro τ m hτ
    rw [hslot, Slot.place, Option.some.injEq, Prod.mk.injEq] at hτ
    obtain ⟨rfl, rfl⟩ := hτ
    refine ⟨htab.ne_zero, fun u => ?_⟩
    rw [disk_putBlock, if_pos rfl, ← htab.eq_disk]
  · have hyo := hyτ (.outer i) k (by rw [hslot]; rfl)
    rw [disk_putBlock, if_neg hyo, disk_putBlock, if_neg hy]
  · rcases List.mem_pair.1 hy with rfl | rfl
    · exact Or.inr ⟨.outer i, k, by rw [hslot]; rfl, rfl⟩
    · exact Or.inl rfl
  · exact (if_neg (by omega)).symm

/-- A pass leaves the blocks of pointers where they are. -/
theorem Pass.pointer_table (h : Pass inum x p base start v w) {τ : Slot} (hτ : τ.IsTable) :
    w.fs.pointer inum τ = v.fs.pointer inum τ := by
  rw [h.stored.pointer, update_of_ne]
  rintro rfl
  exact not_isTable_dataSlot x hτ

/-! ## The loops -/

/-- The write goes on from data slot `x` after a loop has come to its end, and is over if the
loop has ended it. -/
def Flow.Continues (L : Block → ℕ → Prop) (inum stop x : ℕ) (v : WriteVars g) (f f' : Flow g) : Prop :=
  match f with
  | .cleanup total s => f' = .cleanup total s
  | .next w => Ready inum w → (∀ τ : Slot, τ.IsTable → w.fs.pointer inum τ = v.fs.pointer inum τ) →
      Writes L inum stop x w f'

theorem Pass.continues (h : Pass inum x p base start v w) {y : ℕ} (hf : f.Continues L inum stop y v f') :
    f.Continues L inum stop y w f' := by
  cases f with
  | cleanup total s => exact hf
  | next u => exact fun hu hτ => hf hu fun τ ht => (hτ τ ht).trans (h.pointer_table ht)

/-- After a pass the write ends, or the loop goes on. -/
theorem Pass.writes (h : Pass inum x p base start v w) {rest : Except Fault (Flow g)} {y : ℕ}
    (hends : PassEnds w rest f) (hf : f.Continues L inum stop y v f')
    (hrest : rest = .ok f → Writes L inum stop (x + 1) (resume (x + 1) w) f') :
    Writes L inum stop x v f' := by
  rcases hends with ⟨hlen, rfl⟩ | ⟨hlen, hr⟩
  · rw [show f' = .cleanup w.total w.fs from hf]
    exact .last h hlen
  · exact .pass h hlen (hrest hr)

theorem writeDirect_writes (hni : n + i = 6) (hv : Ready inum v)
    (h : writeDirect inum n i v = .ok f) (hf : f.Continues L inum stop 6 v f') :
    Writes L inum stop i (if n = 0 then { v with offset := 0 } else v) f' := by
  induction n generalizing i v with
  | zero =>
    obtain rfl := Except.ok.inj h
    obtain rfl : i = 6 := by omega
    exact hf ⟨hv.blocks, hv.alloc, hv.file, hv.inode⟩ fun _ _ => rfl
  | succ n ih =>
    have hi : i < 6 := by omega
    have hslot := dataSlot_direct hi
    rw [if_neg (Nat.succ_ne_zero n)]
    rcases writeDirect_succ h with ⟨h0, hfull, rfl⟩ | ⟨p, block, start, t, hb, hends⟩
    · rw [show f' = .cleanup (-ENOSPC) v.fs from hf]
      refine .full (by omega) (Or.inr rfl) ?_ hfull
      rw [hslot, ← h0]
      exact (hv.pointer (.direct i)).symm
    · have hp := hv.passDirect hi hb
      refine hp.writes hends hf fun hr => ?_
      have hnext := ih (by omega) hp.ready hr (hp.continues hf)
      rwa [resume, if_congr (show i + 1 = 6 ∨ i + 1 = 262 ↔ n = 0 by omega) rfl rfl]

theorem writeLevel1_writes (hni : n + i = 256) (hv : Ready inum v) {indirect1 : Block}
    (htab : Buffered inum .indir1 indirect1 v.fs) (h : writeLevel1 inum n i indirect1 v = .ok f)
    (hf : f.Continues L inum stop 262 v f') :
    Writes L inum stop (i + 6) (if n = 0 then { v with offset := 0 } else v) f' := by
  induction n generalizing i v indirect1 with
  | zero =>
    obtain rfl := Except.ok.inj h
    obtain rfl : i = 256 := by omega
    exact hf ⟨hv.blocks, hv.alloc, hv.file, hv.inode⟩ fun _ _ => rfl
  | succ n ih =>
    have hi : i < 256 := by omega
    have hslot := dataSlot_level1 hi
    rw [if_neg (Nat.succ_ne_zero n)]
    rcases writeLevel1_succ h with ⟨h0, hfull, rfl⟩ | ⟨p, block, start, t, hb, hends⟩
    · rw [show f' = .cleanup (-ENOSPC) v.fs from hf]
      refine .full (by omega) (Or.inr rfl) ?_ hfull
      rw [hslot, ← h0]
      exact (htab.word i).symm
    · have hp := hv.passLevel1 hi htab hb
      refine hp.writes hends hf fun hr => ?_
      have hstored := hp.stored
      rw [hslot] at hstored
      have hnext := ih (by omega) hp.ready (htab.setWord hi hstored) hr (hp.continues hf)
      rw [resume, if_congr (show i + 6 + 1 = 6 ∨ i + 6 + 1 = 262 ↔ n = 0 by omega) rfl rfl,
        Nat.add_right_comm i 6 1]
      exact hnext

theorem writeInner_writes (hi : i < 256) (hnj : n + j = 256) (hv : Ready inum v) {indirect1 : Block}
    {outer : UInt32} (ho : v.fs.pointer inum (.outer i) = outer)
    (htab : Buffered inum (.outer i) indirect1 v.fs)
    (h : writeInner inum outer n j indirect1 v = .ok f)
    (hf : f.Continues L inum stop (262 + 256 * (i + 1)) v f') :
    Writes L inum stop (262 + 256 * i + j) v f' := by
  induction n generalizing j v indirect1 with
  | zero =>
    obtain rfl := Except.ok.inj h
    obtain rfl : j = 256 := by omega
    rw [show 262 + 256 * i + 256 = 262 + 256 * (i + 1) by omega]
    exact hf hv fun _ _ => rfl
  | succ n ih =>
    have hj : j < 256 := by omega
    have hslot : dataSlot (262 + 256 * i + j) = .inner i j := dataSlot_inner hj
    rcases writeInner_succ h with ⟨h0, hfull, rfl⟩ | ⟨p, block, start, t, hb, hends⟩
    · rw [show f' = .cleanup (-ENOSPC) v.fs from hf]
      refine .full (by omega) (Or.inr rfl) ?_ hfull
      rw [hslot, ← h0]
      exact (htab.word j).symm
    · have hp := hv.passInner hj htab hb
      rw [ho] at hp
      refine hp.writes hends hf fun hr => ?_
      have hstored := hp.stored
      rw [hslot] at hstored
      have hnext := ih (by omega) hp.ready ((hp.pointer_table (τ := .outer i) trivial).trans ho)
        (htab.setWord hj hstored) hr (hp.continues hf)
      rw [resume, if_neg (show ¬ (262 + 256 * i + j + 1 = 6 ∨ 262 + 256 * i + j + 1 = 262) by omega)]
      exact hnext

/-! ## Blocks of pointers -/

/-- **A new block of pointers**, in the slot `σ`. -/
theorem Ready.tabled (hv : Ready inum v) (hx : σ.Exists)
    (h0 : v.fs.pointer inum σ = 0) {b : ℕ} (hb : v.fs.LowestFree b) {ino : Inode}
    (hmode : ino.mode = v.inode.mode) (hsize : ino.size = v.inode.size)
    (hdirect : ino.direct = (v.inode.setPointer (UInt32.ofNat b) σ).direct)
    (h1 : ino.indir1 = (v.inode.setPointer (UInt32.ofNat b) σ).indir1)
    (h2 : ino.indir2 = (v.inode.setPointer (UInt32.ofNat b) σ).indir2)
    (hinodeMap : s.inodeMap = v.fs.inodeMap) (hinodes : s.inodes = update v.fs.inodes inum ino)
    (hblockMap : s.blockMap = update v.fs.blockMap b true) (hcontent : s.disk b = Block.zero)
    (htable : ∀ τ k, σ.place = some (τ, k) → v.fs.pointer inum τ ≠ 0 ∧
      s.disk (v.fs.pointer inum τ).toNat =
        (v.fs.disk (v.fs.pointer inum τ).toNat).setWord k (UInt32.ofNat b))
    (hframe : ∀ y, g.startBlock ≤ y → y ≠ b →
      (∀ τ k, σ.place = some (τ, k) → y ≠ (v.fs.pointer inum τ).toNat) → s.disk y = v.fs.disk y)
    (htrace : ∃ w, s.trace = w ++ v.fs.trace ∧ ∀ y ∈ w, y = b ∨
      ∃ τ k, σ.place = some (τ, k) ∧ y = (v.fs.pointer inum τ).toNat) :
    Tabled inum σ (UInt32.ofNat b) v { v with fs := s, inode := ino } := by
  obtain ⟨hp, hlow⟩ := hv.blocks.lowestFree_toNat hb
  have htoNat := toNat_ofNat_of_lt hv.blocks.numBlocks_lt hb.free.2.1
  have hstored : Stored inum σ (UInt32.ofNat b) Block.zero 0 v.fs s := by
    refine hv.blocks.stored hv.alloc hv.file hx (Or.inr ⟨h0, hp, hlow⟩) hinodeMap hinodes
      (by rw [hmode, hv.inode]) ?_ (by rw [hdirect, hv.inode]) (by rw [h1, hv.inode])
      (by rw [h2, hv.inode]) (Or.inr (by rw [htoNat, hblockMap])) (by rw [htoNat, hcontent])
      (fun _ => rfl) htable (fun y hy hyb => hframe y hy (htoNat ▸ hyb)) (htoNat.symm ▸ htrace)
    rw [hsize, hv.inode]
    exact (Int32.add_zero _).symm
  refine ⟨h0, hstored, ?_, rfl, rfl, rfl, rfl⟩
  exact hv.stored (w := { v with fs := s, inode := ino }) hstored (by rw [hinodes, update_self])

/-- A new block of pointers in the inode. -/
theorem Ready.tabled_inode (hv : Ready inum v) (hσ : σ = .indir1 ∨ σ = .indir2)
    (h0 : v.fs.pointer inum σ = 0) {b : ℕ} (hb : v.fs.LowestFree b)
    (hs : (((v.fs.takeBlock b).setInode inum (v.inode.setPointer (UInt32.ofNat b) σ)).writeAllInodes).writeBlock
      (UInt32.ofNat b).toNat Block.zero = .ok s) :
    Tabled inum σ (UInt32.ofNat b) v
      { v with fs := s, inode := v.inode.setPointer (UInt32.ofNat b) σ } := by
  have htoNat := toNat_ofNat_of_lt hv.blocks.numBlocks_lt hb.free.2.1
  obtain ⟨-, rfl⟩ := writeBlock_ok hs
  rw [htoNat]
  have hplace : ∀ τ k, σ.place ≠ some (τ, k) := by
    rcases hσ with rfl | rfl <;> simp [Slot.place]
  refine hv.tabled ?_ h0 hb ?_ ?_ rfl rfl rfl rfl rfl rfl ?_ (fun τ k h => absurd h (hplace τ k)) ?_
    ⟨[b], rfl, fun y hy => Or.inl (List.mem_singleton.1 hy)⟩
  · rcases hσ with rfl | rfl <;> trivial
  · rcases hσ with rfl | rfl <;> rfl
  · rcases hσ with rfl | rfl <;> rfl
  · rw [disk_putBlock, if_pos rfl]
  · intro y hy hyb _
    rw [disk_putBlock, if_neg hyb, disk_writeAllInodes _ hy, disk_setInode, disk_takeBlock _ _ hy]

/-- The number of a new level-1 block, in `indir_2`, leaves what the block holds. -/
theorem Ready.disk_outer (hv : Ready inum v) {indirect2 : Block}
    (htab : Buffered inum .indir2 indirect2 v.fs) {b : ℕ} (hb : v.fs.LowestFree b) (c : Block) :
    ((v.fs.takeBlock b).putBlock v.inode.indir2.toNat c).disk b = v.fs.disk b := by
  have huse := hv.blocks.sound.used (owner_of_pointer hv.alloc hv.file htab.ne_zero)
  have hne : b ≠ v.inode.indir2.toNat := by
    rw [show v.inode.indir2 = v.fs.pointer inum .indir2 from hv.pointer .indir2]
    rintro rfl
    exact hb.free.not_inUse huse
  rw [disk_putBlock, if_neg hne, disk_takeBlock _ _ hb.free.1]

/-- A new level-1 block, if it is filled with zeros already. -/
theorem Ready.tabled_outer (hv : Ready inum v) (hi : i < 256) {indirect2 : Block}
    (htab : Buffered inum .indir2 indirect2 v.fs) (h0 : indirect2.word i = 0) {b : ℕ}
    (hb : v.fs.LowestFree b) (hclean : v.fs.disk b = Block.zero) :
    Tabled inum (.outer i) (UInt32.ofNat b) v
      { v with fs := ((v.fs.takeBlock b).putBlock v.inode.indir2.toNat
          (indirect2.setWord i (UInt32.ofNat b))) } := by
  have hino : v.inode.indir2 = v.fs.pointer inum .indir2 := hv.pointer .indir2
  have hdisk := hv.disk_outer htab hb (indirect2.setWord i (UInt32.ofNat b))
  rw [hino] at hdisk ⊢
  refine hv.tabled (σ := .outer i) hi ((htab.word i).symm.trans h0) hb rfl rfl rfl rfl rfl rfl
    ?_ rfl ?_ (fun τ k hτ => ?_) (fun y hy hyb hyτ => ?_)
    ⟨[(v.fs.pointer inum .indir2).toNat], rfl, fun y hy => Or.inr ⟨.indir2, i, rfl, List.mem_singleton.1 hy⟩⟩
  · rw [inodes_putBlock, inodes_takeBlock, hv.inode, update_eq_self]
  · rw [hdisk, hclean]
  · rw [Slot.place, Option.some.injEq, Prod.mk.injEq] at hτ
    obtain ⟨rfl, rfl⟩ := hτ
    refine ⟨htab.ne_zero, ?_⟩
    rw [disk_putBlock, if_pos rfl, ← htab.eq_disk]
  · rw [disk_putBlock, if_neg (hyτ .indir2 i rfl), disk_takeBlock _ _ hy]

/-- The loop over a level-1 block reads the block that its first word names. -/
theorem writeInner_readable {outer : UInt32} {indirect1 : Block}
    (h : writeInner inum outer (n + 1) j indirect1 v = .ok f) : Readable g indirect1 j := by
  rw [writeInner, bind_eq_ok] at h
  obtain ⟨o, ho, -⟩ := h
  unfold slotBlock at ho
  split at ho
  · next h0 => exact Or.inl h0
  · rw [bind_eq_ok] at ho
    obtain ⟨b, hread, -⟩ := ho
    exact Or.inr (readBlock_ok hread).1

theorem writeOuter_writes (hni : n + i = 256) (hj : j < 256) (hn : n = 0 → j = 0) (hv : Ready inum v)
    {indirect2 : Block} (htab : Buffered inum .indir2 indirect2 v.fs)
    (h : writeOuter inum n i j indirect2 v = .ok f) :
    Writes (Readable g) inum 65798 (262 + 256 * i + j) v f := by
  induction n generalizing i j v indirect2 with
  | zero =>
    obtain rfl := Except.ok.inj h
    obtain rfl := hn rfl
    have hx : 262 + 256 * i + 0 = 65798 := by omega
    rw [hx]
    exact .done
  | succ n ih =>
    have hi : i < 256 := by omega
    have hdiv : (262 + 256 * i + j - 262) / 256 = i := by omega
    have hmem := outer_mem_tables (show 262 ≤ 262 + 256 * i + j by omega)
    rw [hdiv] at hmem
    -- the passes over one level-1 block, and then the next
    have hinner : ∀ {u : WriteVars g} {indirect2 : Block} {outer : UInt32}, Ready inum u →
        Buffered inum .indir2 indirect2 u.fs → u.fs.pointer inum (.outer i) = outer → outer ≠ 0 →
        (do let indirect1 ← u.fs.readBlock outer.toNat
            match ← writeInner inum outer (256 - j) j indirect1 u with
            | .cleanup total s => Except.ok (Flow.cleanup total s)
            | .next w => writeOuter inum n (i + 1) 0 indirect2 w) = .ok f →
        Writes (Readable g) inum 65798 (262 + 256 * i + j) u f := by
      intro u indirect2 outer hu hbuf ho hne hr
      rw [bind_eq_ok] at hr
      obtain ⟨indirect1, hread, hr⟩ := hr
      obtain ⟨-, rfl⟩ := readBlock_ok hread
      rw [bind_eq_ok] at hr
      obtain ⟨f', hf', hr⟩ := hr
      have htable : Buffered inum (.outer i) (u.fs.disk outer.toNat) u.fs := by
        rw [← ho]
        exact buffered_disk trivial (ho.symm ▸ hne)
      refine writeInner_writes hi (by omega) hu ho htable hf' ?_
      cases f' with
      | cleanup total s => exact (Except.ok.inj hr).symm
      | next w =>
        intro hw htables
        have hbuf' : Buffered inum .indir2 indirect2 w.fs := by
          refine ⟨trivial, htables .indir2 trivial ▸ hbuf.ne_zero, fun m => ?_⟩
          rw [hbuf.word]
          exact (htables (.outer m) trivial).symm
        have hnext := ih (i := i + 1) (j := 0) (by omega) (by omega) (fun _ => rfl) hw hbuf' hr
        rwa [Nat.add_zero] at hnext
    rw [writeOuter, bind_eq_ok] at h
    obtain ⟨o, ho, h⟩ := h
    have hcases := outerBlock_ok ho
    cases hcases with
    | full h0 hfull =>
      obtain rfl := Except.ok.inj h
      exact .full (by omega) (Or.inl hmem) ((htab.word i).symm.trans h0) hfull
    | @fresh b h0 hb =>
      have htoNat := toNat_ofNat_of_lt hv.blocks.numBlocks_lt hb.free.2.1
      by_cases hclean : v.fs.disk b = Block.zero
      · have ht := hv.tabled_outer hi htab h0 hb hclean
        exact .table hmem ht (fun _ => htoNat.symm ▸ hclean)
          (hinner ht.ready (htab.setWord hi ht.stored) ht.stored.pointer_self ht.stored.ne_zero h)
      · refine .dirty (by omega) (by omega) htab.ne_zero ?_ hb hclean ?_
        · rw [hdiv, ← h0]
          exact (htab.word i).symm
        · obtain ⟨indirect1, hread, h⟩ := bind_eq_ok.mp h
          obtain ⟨-, rfl⟩ := readBlock_ok hread
          obtain ⟨f', hf', -⟩ := bind_eq_ok.mp h
          rw [show 256 - j = (255 - j) + 1 by omega] at hf'
          have hfirst := writeInner_readable hf'
          have hmod : (262 + 256 * i + j - 262) % 256 = j := by omega
          rw [hmod]
          rwa [htoNat, hv.disk_outer htab hb] at hfirst
    | mapped h0 => exact hinner hv htab (htab.word i).symm h0 h

/-! ## The three entries -/

theorem not_isOuter {P : Prop} (hσ : σ = .indir1 ∨ σ = .indir2) (h : σ.IsOuter) : P := by
  rcases hσ with rfl | rfl <;> exact h.elim

/-- The block of pointers in `indir_1` or `indir_2` is there, or it is taken, or there is no
block for it. -/
theorem Ready.enter (hv : Ready inum v) (hlt : x < 65798) (hσ : σ = .indir1 ∨ σ = .indir2)
    (hmem : σ ∈ tables x) (start : WriteVars g → Except Fault (Flow g))
    (h : (if v.fs.pointer inum σ = 0 then do
        match ← v.fs.newBlock with
        | none => .ok (.cleanup (-ENOSPC) v.fs)
        | some (ret, s) => do
          let inode := v.inode.setPointer ret σ
          let s := (s.setInode inum inode).writeAllInodes
          let s ← s.writeBlock ret.toNat Block.zero
          start { v with fs := s, inode := inode }
      else start v) = .ok f)
    (hstart : ∀ w : WriteVars g, Ready inum w → w.fs.pointer inum σ ≠ 0 → start w = .ok f →
      Writes L inum stop x w f) : Writes L inum stop x v f := by
  split at h
  · next h0 =>
    rw [bind_eq_ok] at h
    obtain ⟨o, ho, h⟩ := h
    rcases newBlock_ok ho with ⟨rfl, hfull⟩ | ⟨b, hb, rfl⟩
    · obtain rfl := Except.ok.inj h
      exact .full hlt (Or.inl hmem) h0 hfull
    · dsimp only at h
      rw [bind_eq_ok] at h
      obtain ⟨s, hs, h⟩ := h
      have ht := hv.tabled_inode hσ h0 hb hs
      exact .table hmem ht (not_isOuter hσ) (hstart _ ht.ready ht.stored.self_ne_zero h)
  · next h0 => exact hstart v hv h0 h

theorem fromLevel2_writes (hx : 262 ≤ x) (hlt : x < 65798) (hv : Ready inum v)
    (h : fromLevel2 inum x v = .ok f) : Writes (Readable g) inum 65798 x v f := by
  rw [fromLevel2, show v.inode.indir2 = v.fs.pointer inum .indir2 from hv.pointer .indir2] at h
  refine hv.enter hlt (Or.inr rfl) (indir2_mem_tables hx) (fun w => do
    let indirect2 ← w.fs.readBlock w.inode.indir2.toNat
    writeOuter inum (256 - (x - 262) / 256) ((x - 262) / 256) ((x - 262) % 256) indirect2 w) h
    fun w hw h2 hr => ?_
  rw [show w.inode.indir2 = w.fs.pointer inum .indir2 from hw.pointer .indir2, bind_eq_ok] at hr
  obtain ⟨indirect2, hread, hr⟩ := hr
  obtain ⟨-, rfl⟩ := readBlock_ok hread
  have hwrites := writeOuter_writes (by omega) (by omega) (by omega) hw (buffered_disk trivial h2) hr
  have hsplit : 262 + 256 * ((x - 262) / 256) + (x - 262) % 256 = x := by omega
  rwa [hsplit] at hwrites

theorem fromLevel1_writes (hx : 6 ≤ x) (hlt : x < 262) (hv : Ready inum v)
    (h : fromLevel1 inum x v = .ok f) : Writes (Readable g) inum 65798 x v f := by
  rw [fromLevel1, show v.inode.indir1 = v.fs.pointer inum .indir1 from hv.pointer .indir1] at h
  refine hv.enter (by omega) (Or.inl rfl) (indir1_mem_tables hx hlt) (fun w => do
    let indirect1 ← w.fs.readBlock w.inode.indir1.toNat
    match ← writeLevel1 inum (256 - (x - 6)) (x - 6) indirect1 w with
    | .cleanup total s => .ok (.cleanup total s)
    | .next u => fromLevel2 inum 262 u) h fun w hw h1 hr => ?_
  rw [show w.inode.indir1 = w.fs.pointer inum .indir1 from hw.pointer .indir1, bind_eq_ok] at hr
  obtain ⟨indirect1, hread, hr⟩ := hr
  obtain ⟨-, rfl⟩ := readBlock_ok hread
  rw [bind_eq_ok] at hr
  obtain ⟨f', hf', hr⟩ := hr
  have hwrites : Writes (Readable g) inum 65798 (x - 6 + 6)
      (if 256 - (x - 6) = 0 then { w with offset := 0 } else w) f := by
    refine writeLevel1_writes (by omega) hw (buffered_disk trivial h1) hf' ?_
    cases f' with
    | cleanup total s => exact (Except.ok.inj hr).symm
    | next u => exact fun hu _ => fromLevel2_writes le_rfl (by omega) hu hr
  rwa [if_neg (show ¬ 256 - (x - 6) = 0 by omega), Nat.sub_add_cancel hx] at hwrites

theorem fromDirect_next {f' : Flow g}
    (h : (match f with
      | .cleanup total s => .ok (.cleanup total s)
      | .next w => fromLevel1 inum 6 w) = (.ok f' : Except Fault (Flow g))) :
    f.Continues (Readable g) inum 65798 6 v f' := by
  cases f with
  | cleanup total s => exact (Except.ok.inj h).symm
  | next w => exact fun hw _ => fromLevel1_writes le_rfl (by omega) hw h

/-- **The loops of a write** from data slot `x` on.  Past the last slot they start over at
slot 6. -/
theorem writeBlocks_writes (hv : Ready inum v) (h : writeBlocks inum x v = .ok f) :
    Writes (Readable g) inum 65798 (if x < 65798 then x else 6)
      (if x < 65798 then v else { v with offset := 0 }) f := by
  rw [writeBlocks] at h
  by_cases h6 : x < 6
  · rw [if_pos h6, fromDirect, bind_eq_ok] at h
    obtain ⟨f', hf', h⟩ := h
    have hwrites := writeDirect_writes (by omega) hv hf' (fromDirect_next h)
    rw [if_neg (show ¬ 6 - x = 0 by omega)] at hwrites
    rwa [if_pos (by omega), if_pos (by omega)]
  · rw [if_neg h6] at h
    by_cases h262 : x < 262
    · rw [if_pos h262] at h
      rw [if_pos (by omega), if_pos (by omega)]
      exact fromLevel1_writes (by omega) h262 hv h
    · rw [if_neg h262] at h
      split at h
      · next hlt =>
        rw [if_pos hlt, if_pos hlt]
        exact fromLevel2_writes (by omega) hlt hv h
      · next hlt =>
        rw [if_neg hlt, if_neg hlt]
        rw [fromDirect, show 6 - x = 0 by omega, writeDirect] at h
        exact fromLevel1_writes le_rfl (by omega) ⟨hv.blocks, hv.alloc, hv.file, hv.inode⟩ h

/-! ## The whole of a write -/

/-- `total_bytes_written` at the end. -/
def Flow.total : Flow g → ℤ
  | .cleanup total _ => total
  | .next v => v.total

/-- The local variables when the loops are entered. -/
def writeVars (s : FS g) (i : ℕ) (buf : ℕ → UInt8) (len offset : ℕ) : WriteVars g :=
  ⟨s, s.inodes i, buf, len, if offset / 1024 < 65798 then offset else 0, 0⟩

/-- The ways `fs_write` returns. -/
inductive WriteResult (c : Context) (s : FS g) (path : Path) (buf : ℕ → UInt8) (len offset : ℕ) :
    ℤ → FS g → Prop
  | badPath {e : ℤ} (hr : s.resolve 1 path.tokens = .inl e) : WriteResult c s path buf len offset e s
  | isDir {i : ℕ} (hr : s.resolve 1 path.tokens = .inr i) (hd : s.isDir i = true) :
      WriteResult c s path buf len offset (-EISDIR) s
  | badOffset {i : ℕ} (hr : s.resolve 1 path.tokens = .inr i) (hd : s.isDir i = false)
      (ho : (s.inodes i).size.toInt < offset) : WriteResult c s path buf len offset (-EINVAL) s
  | written {i : ℕ} {f : Flow g} {e : ℤ} {s' : FS g} (hr : s.resolve 1 path.tokens = .inr i)
      (hd : s.isDir i = false) (ho : offset ≤ (s.inodes i).size.toInt)
      (hw : Writes (Readable g) i 65798 (if offset / 1024 < 65798 then offset / 1024 else 6)
        (s.writeVars i buf len offset) f)
      (ht : TouchResult (fun ino => { ino with mtime := c.now }) f.state path e s')
      (hloops : writeBlocks i (offset / 1024) ⟨s, s.inodes i, buf, len, offset, 0⟩ = .ok f) :
      WriteResult c s path buf len offset f.total s'

theorem SoundBlocks.ready_writeVars (hs : s.SoundBlocks) (hi : s.inodeMap i = true) (hf : s.isDir i = false)
    (buf : ℕ → UInt8) (len offset : ℕ) : Ready i (s.writeVars i buf len offset) :=
  ⟨hs, hi, hf, rfl⟩

theorem fsWrite_ok (hs : s.SoundBlocks) {c : Context} {path : Path}
    (ha : ∀ i, s.resolve 1 path.tokens = .inr i → s.inodeMap i = true) {buf : ℕ → UInt8}
    {len offset : ℕ} {r : ℤ} (h : s.fsWrite c path buf len offset = .ok (r, t)) :
    WriteResult c s path buf len offset r t := by
  rw [fsWrite, bind_eq_ok] at h
  obtain ⟨o, ho, h⟩ := h
  rcases fsGetattr_ok ho with ⟨e, hr, rfl⟩ | ⟨i, hr, rfl⟩
  · obtain ⟨rfl, rfl⟩ := Prod.mk.inj (Except.ok.inj h)
    exact .badPath hr
  dsimp only [fsSetSuperbockAttrs] at h
  rw [bind_eq_ok] at h
  obtain ⟨ino, hino, h⟩ := h
  obtain ⟨-, -, rfl⟩ := inode_ok hino
  rw [Int.toNat_natCast] at h
  split at h
  · next hd =>
    obtain ⟨rfl, rfl⟩ := Prod.mk.inj (Except.ok.inj h)
    exact .isDir hr hd
  next hd =>
  have hf : s.isDir i = false := Bool.of_not_eq_true hd
  split at h
  · next hoff =>
    obtain ⟨rfl, rfl⟩ := Prod.mk.inj (Except.ok.inj h)
    exact .badOffset hr hf hoff
  next hoff =>
  rw [bind_eq_ok] at h
  obtain ⟨f, hw, h⟩ := h
  have hwrites := writeBlocks_writes ⟨hs, ha i hr, hf, rfl⟩ hw
  have hvars : (if offset / 1024 < 65798 then ⟨s, s.inodes i, buf, len, offset, 0⟩
      else { (⟨s, s.inodes i, buf, len, offset, 0⟩ : WriteVars g) with offset := 0 }) =
        s.writeVars i buf len offset := by
    rw [writeVars]
    split <;> rfl
  have hcleanup : f.state.writeCleanup c path f.total = .ok (r, t) := by
    cases f <;> exact h
  rw [writeCleanup, bind_eq_ok] at hcleanup
  obtain ⟨⟨e, u⟩, hu, h⟩ := hcleanup
  obtain ⟨rfl, rfl⟩ := Prod.mk.inj (Except.ok.inj h)
  exact .written hr hf (not_lt.mp hoff) (hvars ▸ hwrites) (fsUtime_ok hu) hw

/-- A write to a file is refused for its offset, or comes to the loops and then a new time. -/
theorem cases_of_fsWrite (hs : s.SoundBlocks) {c : Context} {path : Path} (hi : s.inodeMap i = true)
    (hr : s.resolve 1 path.tokens = .inr i) (hf : s.isDir i = false) {buf : ℕ → UInt8} {len offset : ℕ}
    {r : ℤ} (h : s.fsWrite c path buf len offset = .ok (r, t)) :
    ((s.inodes i).size.toInt < offset ∧ r = -EINVAL ∧ t = s) ∨
      (offset : ℤ) ≤ (s.inodes i).size.toInt ∧ ∃ (f : Flow g) (e : ℤ), f.total = r ∧
        writeBlocks i (offset / 1024) ⟨s, s.inodes i, buf, len, offset, 0⟩ = .ok f ∧
        Writes (Readable g) i 65798 (if offset / 1024 < 65798 then offset / 1024 else 6)
          (s.writeVars i buf len offset) f ∧
        TouchResult (fun ino => { ino with mtime := c.now }) f.state path e t := by
  have halloc : ∀ j, s.resolve 1 path.tokens = .inr j → s.inodeMap j = true := by
    intro j hj
    obtain rfl := Sum.inr.inj (hr.symm.trans hj)
    exact hi
  cases fsWrite_ok hs halloc h with
  | badPath he => exact absurd (hr.symm.trans he) (by simp)
  | isDir hj hd =>
    obtain rfl := Sum.inr.inj (hr.symm.trans hj)
    exact absurd (hf.symm.trans hd) Bool.false_ne_true
  | badOffset hj _ ho =>
    obtain rfl := Sum.inr.inj (hr.symm.trans hj)
    exact Or.inl ⟨ho, rfl, rfl⟩
  | @written j f e _ hj _ ho hwrites ht hloops =>
    obtain rfl := Sum.inr.inj (hr.symm.trans hj)
    exact Or.inr ⟨ho, f, e, rfl, hloops, hwrites, ht⟩

/-- If it returns all it was given, it has come to the loops. -/
theorem loops_of_fsWrite (hs : s.SoundBlocks) {c : Context} {path : Path} (hi : s.inodeMap i = true)
    (hr : s.resolve 1 path.tokens = .inr i) (hf : s.isDir i = false) {buf : ℕ → UInt8} {len offset : ℕ}
    (h : s.fsWrite c path buf len offset = .ok ((len : ℤ), t)) :
    (offset : ℤ) ≤ (s.inodes i).size.toInt ∧ ∃ (f : Flow g) (e : ℤ), f.total = len ∧
      writeBlocks i (offset / 1024) ⟨s, s.inodes i, buf, len, offset, 0⟩ = .ok f ∧
      Writes (Readable g) i 65798 (if offset / 1024 < 65798 then offset / 1024 else 6)
        (s.writeVars i buf len offset) f ∧
      TouchResult (fun ino => { ino with mtime := c.now }) f.state path e t := by
  rcases cases_of_fsWrite hs hi hr hf h with ⟨-, hret, -⟩ | hloops
  · exact absurd (hret ▸ Int.natCast_nonneg len : (0 : ℤ) ≤ -EINVAL) (by decide)
  · exact hloops

theorem Wf.fsWrite_ok (hwf : Wf s) {c : Context} {path : Path} {buf : ℕ → UInt8} {len offset : ℕ}
    {r : ℤ} (h : s.fsWrite c path buf len offset = .ok (r, t)) :
    WriteResult c s path buf len offset r t :=
  FS.fsWrite_ok hwf.blocks (fun _ => hwf.alloc_of_resolve) h

end FS

end Fsx600
