import Fsx600.Spec.WriteLoops

/-!
# The blocks a write takes

A write takes blocks for the slots that are empty, in the order in which it comes to them,
and it gets the free blocks in ascending order.  So both lists can be read off the state
before: `needs` and `freeBlocks`.  `TableSafe` puts them side by side and asks that no
block which becomes a level-1 block holds anything but zeros.

This is the one thing `fs_write` takes for granted.  Under it a write is a sequence of
`Stored` steps, and `Writes.keeps` is the induction over them.
-/

namespace Fsx600

open Function

/-- The slots on the way to the contents of data slot `x`. -/
def way (x : ℕ) : List Slot := FS.tables x ++ [dataSlot x]

theorem dataSlot_mem_way (x : ℕ) : dataSlot x ∈ way x :=
  List.mem_append_right _ (List.mem_singleton_self _)

/-- The slots that a write of `len` bytes gets blocks for, from data slot `x` on, if `empty`
tells which slots hold none. -/
def taken (empty : Slot → Bool) : ℕ → ℕ → ℕ → ℕ → List Slot
  | 0, _, _, _ => []
  | n + 1, x, offset, len =>
    let start := if empty (dataSlot x) then 0 else offset % 1024
    let offset := if (x < 262 ∧ start = 0) ∨ x + 1 = 6 ∨ x + 1 = 262 then 0 else offset
    (way x).filter empty ++ if len ≤ 1024 - start then []
      else taken (fun σ => empty σ && !(way x).contains σ) n (x + 1) offset (len - (1024 - start))

namespace FS

variable {g : Layout} {s s' : FS g} {i inum stop n m x : ℕ} {σ τ : Slot} {p : UInt32} {b : Block}
  {v w : WriteVars g} {f : Flow g} {offset len : ℕ} {L : Block → ℕ → Prop}

/-- The free blocks, in the order in which `get_free_block` finds them. -/
def freeBlocks (s : FS g) : List ℕ := FirstFit.clearList s.blockMap g.startBlock g.maxNumBlocks

/-- `taken`, for the file `i` as it is. -/
def needs (s : FS g) (i n x offset len : ℕ) : List Slot :=
  taken (fun σ => s.pointer i σ = 0) n x offset len

/-- Given one free block each, the slots that hold level-1 blocks get blocks of zeros. -/
def ZeroTables (s : FS g) (slots : List Slot) : Prop :=
  ∀ y ∈ slots.zip s.freeBlocks, y.1.IsOuter → s.disk y.2 = Block.zero

/-- No block that a write of `len` bytes at `offset` makes a level-1 block holds anything but
zeros. -/
def TableSafe (s : FS g) (i offset len : ℕ) : Prop :=
  let x := if offset / 1024 < 65798 then offset / 1024 else 6
  s.ZeroTables (s.needs i (65798 - x) x (if offset / 1024 < 65798 then offset else 0) len)

/-- If the path leads to a file, the file satisfies `P`. -/
def OfFile (s : FS g) (path : Path) (P : ℕ → Prop) : Prop :=
  ∀ i, s.resolve 1 path.tokens = .inr i → s.isDir i = false → P i

/-- A write to a path is safe, if it comes to writing at all. -/
def WriteSafe (s : FS g) (path : Path) (len offset : ℕ) : Prop :=
  s.OfFile path fun i => offset ≤ (s.inodes i).size.toInt → s.TableSafe i offset len

instance (s : FS g) (slots : List Slot) : Decidable (s.ZeroTables slots) :=
  inferInstanceAs (Decidable (∀ y ∈ slots.zip s.freeBlocks, _))

instance (s : FS g) (i offset len : ℕ) : Decidable (s.TableSafe i offset len) :=
  inferInstanceAs (Decidable (s.ZeroTables _))

/-- A path leads to one inode at most. -/
instance (s : FS g) (path : Path) (P : ℕ → Prop) [∀ i, Decidable (P i)] : Decidable (s.OfFile path P) :=
  match h : s.resolve 1 path.tokens with
  | .inl _ => .isTrue fun _ hi => by simp [h] at hi
  | .inr i => decidable_of_iff (s.isDir i = false → P i)
      ⟨fun hp _ hi => Sum.inr.inj (h.symm.trans hi) ▸ hp, fun hp => hp i h⟩

instance (s : FS g) (path : Path) (len offset : ℕ) : Decidable (s.WriteSafe path len offset) :=
  inferInstanceAs (Decidable (s.OfFile path _))

theorem tableSafe_iff (h : offset / 1024 < 65798) : s.TableSafe i offset len ↔
    s.ZeroTables (s.needs i (65798 - offset / 1024) (offset / 1024) offset len) := by
  unfold TableSafe
  simp only [if_pos h]

/-! ## Free blocks -/

theorem mem_freeBlocks {y : ℕ} : y ∈ s.freeBlocks ↔ s.Free y := FirstFit.mem_clearList

theorem LowestFree.freeBlocks {y : ℕ} (h : s.LowestFree y) (hmap : s'.blockMap = update s.blockMap y true) :
    s.freeBlocks = y :: s'.freeBlocks := by
  rw [FS.freeBlocks, FS.freeBlocks, hmap]
  refine FirstFit.clearList_eq_cons h.free.1 h.free.2.1 h.free.2.2 fun x hx hxy => ?_
  have hlt := h.free.2.1
  by_contra hx'
  exact h.least x hxy ⟨hx, by omega, by simpa using hx'⟩

/-- A block that is free now was free before. -/
theorem Stored.free (hs : s.SoundBlocks) (h : Stored i σ p b n s s') {y : ℕ} (hy : s'.Free y) : s.Free y := by
  refine ⟨hy.1, hy.2.1, ?_⟩
  by_contra hused
  exact hy.not_inUse ((h.inUse_iff hs y).2 (Or.inl ⟨hy.1, hy.2.1, by simpa using hused⟩))

/-- A free block stays what it was until it is taken. -/
theorem Stored.disk_of_free (hs : s.SoundBlocks) (h : Stored i σ p b n s s') {y : ℕ} (hy : s'.Free y) :
    s'.disk y = s.disk y := by
  have hnot : ¬ s.InUse y := (h.free hs hy).not_inUse
  refine h.disk y hy.1 (fun heq => hy.not_inUse ((h.inUse_iff hs y).2 (Or.inr heq))) fun τ k _ heq => ?_
  by_cases h0 : s.pointer i τ = 0
  · exact absurd h0 (ne_zero_of_startBlock_le (heq ▸ hy.1))
  · exact hnot (heq ▸ hs.sound.used (owner_of_pointer h.alloc h.file h0))

/-- The first slot has got its block. -/
theorem ZeroTables.tail {slots : List Slot} (hs : s.SoundBlocks) (h : Stored i σ p b n s s')
    (h0 : s.pointer i σ = 0) (hz : s.ZeroTables (τ :: slots)) : s'.ZeroTables slots := by
  rcases h.source with ⟨hp, hne, -⟩ | ⟨-, -, hlow⟩
  · exact absurd (hp.symm.trans h0) hne
  · intro y hy hyo
    have hfree : s.freeBlocks = p.toNat :: s'.freeBlocks := hlow.freeBlocks h.blockMap
    rw [h.disk_of_free hs (mem_freeBlocks.1 (List.of_mem_zip hy).2)]
    refine hz y ?_ hyo
    rw [hfree]
    exact List.mem_cons_of_mem _ hy

/-- A block that was there was filled. -/
theorem ZeroTables.same {slots : List Slot} (hs : s.SoundBlocks) (h : Stored i σ p b n s s')
    (h0 : s.pointer i σ ≠ 0) (hz : s.ZeroTables slots) : s'.ZeroTables slots := by
  rcases h.source with ⟨hp, -, -⟩ | ⟨hp, -⟩
  · have hmap : s'.blockMap = s.blockMap := by
      rw [h.blockMap, ← hp, ← (hs.sound.used (owner_of_pointer h.alloc h.file h0)).2.2, update_eq_self]
    intro y hy hyo
    rw [h.disk_of_free hs (mem_freeBlocks.1 (List.of_mem_zip hy).2)]
    refine hz y ?_ hyo
    rwa [FS.freeBlocks, hmap] at hy
  · exact absurd hp h0

/-! ## Empty slots -/

/-- A slot in a block of pointers is empty if there is no such block. -/
theorem pointer_place_ne_zero {k : ℕ} (hσ : σ.place = some (τ, k)) (h : s.pointer i σ ≠ 0) :
    s.pointer i τ ≠ 0 := by
  obtain ⟨hτ, rfl⟩ := Slot.place_eq_some.1 hσ
  rintro h0
  refine h ?_
  show (s.inodes i).pointer s.disk (τ.child k) = 0
  rw [Inode.pointer_child _ _ hτ, show (s.inodes i).pointer s.disk τ = 0 from h0, tableWord_zero]

/-- A data slot that holds a block is reached through blocks of pointers. -/
theorem pointer_tables_ne_zero (h : s.pointer i (dataSlot x) ≠ 0) :
    ∀ τ ∈ tables x, s.pointer i τ ≠ 0 := by
  unfold tables
  unfold dataSlot at h
  split_ifs at h ⊢
  · simp
  · intro τ hτ
    obtain rfl := List.mem_singleton.1 hτ
    exact pointer_place_ne_zero (σ := .level1 (x - 6)) rfl h
  · intro τ hτ
    have houter := pointer_place_ne_zero (σ := .inner ((x - 262) / 256) ((x - 262) % 256)) rfl h
    rcases List.mem_pair.1 hτ with rfl | rfl
    · exact pointer_place_ne_zero (σ := .outer ((x - 262) / 256)) rfl houter
    · exact houter

theorem lt_of_pointer_dataSlot (h : s.pointer i (dataSlot x) ≠ 0) : x < 65798 := by
  by_contra hx
  have houter := pointer_tables_ne_zero h (.outer ((x - 262) / 256)) (outer_mem_tables (by omega))
  refine houter ?_
  show tableWord s.disk (s.inodes i).indir2 ((x - 262) / 256) = 0
  exact tableWord_of_le _ _ (by omega)

theorem isTable_of_mem_tables (h : σ ∈ tables x) : σ.IsTable := by
  unfold tables at h
  split_ifs at h
  · simp at h
  · obtain rfl := List.mem_singleton.1 h
    trivial
  · rcases List.mem_pair.1 h with rfl | rfl <;> trivial

/-- After a pass at data slot `x` the blocks of pointers on the way are there, and so they
were before. -/
theorem Pass.tables_ne_zero {base : Block} {start : ℕ} (h : Pass inum x p base start v w) :
    ∀ τ ∈ tables x, v.fs.pointer inum τ ≠ 0 := by
  intro τ hτ
  rw [← h.pointer_table (isTable_of_mem_tables hτ)]
  exact pointer_tables_ne_zero h.stored.self_ne_zero τ hτ

theorem Pass.lt {base : Block} {start : ℕ} (h : Pass inum x p base start v w) : x < 65798 :=
  lt_of_pointer_dataSlot h.stored.self_ne_zero

/-- The slot that gets a block is the first that needs one. -/
theorem filter_tables (hσ : σ ∈ tables x) {e : Slot → Bool} (he : e σ = true)
    (hup : ∀ τ k, σ.place = some (τ, k) → e τ = false) :
    (way x).filter e =
      σ :: (way x).filter fun τ => e τ && !decide (τ = σ) := by
  have hdata : dataSlot x ≠ σ := by
    rintro rfl
    exact not_isTable_dataSlot x (isTable_of_mem_tables hσ)
  unfold way
  unfold tables at hσ ⊢
  split_ifs at hσ ⊢
  · simp at hσ
  · obtain rfl := List.mem_singleton.1 hσ
    simp [List.filter_cons, he, hdata]
  · rcases List.mem_pair.1 hσ with rfl | rfl
    · simp [List.filter_cons, he, hdata]
    · simp [List.filter_cons, he, hdata, hup .indir2 _ rfl]

/-- Storing marks the slot. -/
theorem Stored.empty (h : Stored i σ p b n s s') :
    (fun τ => decide (s'.pointer i τ = 0)) = fun τ => decide (s.pointer i τ = 0) && !decide (τ = σ) := by
  funext τ
  rw [h.pointer]
  rcases eq_or_ne τ σ with rfl | hτ
  · simp [h.ne_zero]
  · simp [hτ]

/-- A slot that is stored in a block of pointers has one to be stored in. -/
theorem Stored.place_ne_zero (h : Stored i σ p b n s s') {k : ℕ} (hk : σ.place = some (τ, k)) :
    s.pointer i τ ≠ 0 := by
  have hup := pointer_place_ne_zero hk h.self_ne_zero
  rwa [h.pointer, update_of_ne] at hup
  rintro rfl
  obtain ⟨hτ, hc⟩ := Slot.place_eq_some.1 hk
  exact Slot.child_ne_self hτ k hc.symm

/-- What is needed when a block of pointers is missing: that block first. -/
theorem Tabled.needs (h : Tabled inum σ p v w) (hσ : σ ∈ tables x) :
    v.fs.needs inum (n + 1) x offset len = σ :: w.fs.needs inum (n + 1) x offset len := by
  have hdata : dataSlot x ≠ σ := by
    rintro rfl
    exact not_isTable_dataSlot x (isTable_of_mem_tables hσ)
  have hfilter := filter_tables hσ (e := fun τ => decide (v.fs.pointer inum τ = 0)) (by simp [h.empty])
    fun τ k hk => by simpa using h.stored.place_ne_zero hk
  -- the slots that are empty after the pass do not depend on whether `σ` was
  have hrest : (fun τ => (decide (v.fs.pointer inum τ = 0) && !decide (τ = σ)) && !(way x).contains τ) =
      fun τ => decide (v.fs.pointer inum τ = 0) && !(way x).contains τ := by
    funext τ
    rcases eq_or_ne τ σ with rfl | hτ
    · simp [way, hσ]
    · simp [hτ]
  rw [FS.needs, FS.needs, h.stored.empty, taken, taken, hfilter, List.cons_append]
  simp only [hdata, decide_false, Bool.not_false, Bool.and_true, hrest]

/-- A block of pointers has got its block. -/
theorem Tabled.zeroTables (h : Tabled inum σ p v w) (hs : v.fs.SoundBlocks) (hσ : σ ∈ tables x)
    (hz : v.fs.ZeroTables (v.fs.needs inum n x v.offset v.len)) :
    w.fs.ZeroTables (w.fs.needs inum n x w.offset w.len) := by
  rw [h.len, h.offset]
  cases n with
  | zero => exact fun y hy => by simp [FS.needs, taken] at hy
  | succ n =>
    rw [h.needs hσ] at hz
    exact hz.tail hs h.stored h.empty

/-- A new block of pointers leaves the data slots alone. -/
theorem Tabled.pointer_dataSlot (h : Tabled inum σ p v w) (hσ : σ ∈ tables x) (y : ℕ) :
    w.fs.pointer inum (dataSlot y) = v.fs.pointer inum (dataSlot y) := by
  rw [h.stored.pointer, update_of_ne]
  rintro rfl
  exact not_isTable_dataSlot y (isTable_of_mem_tables hσ)

/-- A block that exists is filled from `offset` on, a new one from its beginning. -/
theorem Pass.start_eq_ite {base : Block} {start : ℕ} (h : Pass inum x p base start v w) :
    (if v.fs.pointer inum (dataSlot x) = 0 then 0 else v.offset % 1024) = start := by
  rcases h.head with ⟨h0, rfl, -⟩ | ⟨h0, rfl, -⟩
  · exact if_pos h0
  · exact if_neg h0

theorem Pass.start_lt {base : Block} {start : ℕ} (h : Pass inum x p base start v w) : start < 1024 := by
  rw [← h.start_eq_ite]
  split <;> omega

/-- What is needed when only the data slot may be empty. -/
theorem Pass.needs {base : Block} {start : ℕ} (h : Pass inum x p base start v w) :
    v.fs.needs inum (n + 1) x v.offset v.len =
      (if v.fs.pointer inum (dataSlot x) = 0 then [dataSlot x] else []) ++
        if w.len = 0 then [] else w.fs.needs inum n (x + 1) (resume (x + 1) w).offset w.len := by
  have hstart : (if decide (v.fs.pointer inum (dataSlot x) = 0) = true then 0 else v.offset % 1024) =
      start := by
    simp only [decide_eq_true_eq, h.start_eq_ite]
  have hfilter : (way x).filter (fun τ => decide (v.fs.pointer inum τ = 0)) =
      if v.fs.pointer inum (dataSlot x) = 0 then [dataSlot x] else [] := by
    rw [way, List.filter_append, List.filter_eq_nil_iff.2, List.nil_append]
    · simp [List.filter_cons]
    · exact fun τ hτ => by simpa using h.tables_ne_zero τ hτ
  have hrest : (fun τ => decide (v.fs.pointer inum τ = 0) && !(way x).contains τ) =
      fun τ => decide (w.fs.pointer inum τ = 0) := by
    rw [h.stored.empty]
    funext τ
    by_cases hτ : τ ∈ tables x
    · simp [h.tables_ne_zero τ hτ]
    · simp [way, hτ]
  have hlen : w.len = 0 ↔ v.len ≤ 1024 - start := by
    rw [h.len, fillCount]
    split <;> omega
  have hcount : w.len ≠ 0 → v.len - (1024 - start) = w.len := by
    intro hne
    rw [h.len, fillCount, if_pos]
    have := mt hlen.2 hne
    omega
  have hoffset : (resume (x + 1) w).offset =
      if (x < 262 ∧ start = 0) ∨ x + 1 = 6 ∨ x + 1 = 262 then 0 else v.offset := by
    rw [resume]
    by_cases hx : x + 1 = 6 ∨ x + 1 = 262
    · rw [if_pos hx, if_pos (Or.inr hx)]
    · rw [if_neg hx, h.offset]
      exact if_congr (or_iff_left hx).symm rfl rfl
  rw [FS.needs, taken]
  rw [hstart, hfilter, hrest, ← hoffset]
  by_cases hw : w.len = 0
  · rw [if_pos hw, if_pos (hlen.1 hw)]
  · rw [if_neg hw, if_neg (mt hlen.2 hw), hcount hw, FS.needs]

/-- A level-1 block that is taken with anything but zeros in it is one that `ZeroTables` rules
out. -/
theorem not_zeroTables {y : ℕ} (hx : 262 ≤ x) (h2 : s.pointer i .indir2 ≠ 0)
    (houter : s.pointer i (.outer ((x - 262) / 256)) = 0) (hy : s.LowestFree y)
    (hd : s.disk y ≠ Block.zero) : ¬ s.ZeroTables (s.needs i (n + 1) x offset len) := by
  intro hz
  have hfilter := filter_tables (outer_mem_tables hx) (e := fun τ => decide (s.pointer i τ = 0))
    (by simp [houter]) fun τ k hk => by
      obtain ⟨rfl, -⟩ := Prod.mk.inj (Option.some.inj hk)
      simpa using h2
  have hfree : s.freeBlocks = y :: (s.takeBlock y).freeBlocks := hy.freeBlocks rfl
  rw [FS.needs, taken, hfilter, List.cons_append, ZeroTables, hfree, List.zip_cons_cons] at hz
  exact absurd (hz _ List.mem_cons_self trivial) hd

/-- The slots of the next passes get what they need from what is free by then. -/
theorem Pass.zeroTables {base : Block} {start : ℕ} (h : Pass inum x p base start v w)
    (hs : v.fs.SoundBlocks) (hlen : w.len ≠ 0)
    (hz : v.fs.ZeroTables (v.fs.needs inum (n + 1) x v.offset v.len)) :
    w.fs.ZeroTables (w.fs.needs inum n (x + 1) (resume (x + 1) w).offset w.len) := by
  rw [h.needs, if_neg hlen] at hz
  split at hz
  · next hempty => exact hz.tail hs h.stored hempty
  · next hfull => exact hz.same hs h.stored hfull

/-! ## A write as a sequence of stores -/

/-- No level-1 block with leftovers is taken. -/
def NoLeftovers (_ : Block) (_ : ℕ) : Prop := False

/-- If the blocks that become level-1 blocks hold zeros, the write takes none with leftovers. -/
theorem Writes.clean (h : Writes L inum stop x v f) (hv : Ready inum v) (hx : n + x = 65798)
    (hz : v.fs.ZeroTables (v.fs.needs inum n x v.offset v.len)) : Writes NoLeftovers inum stop x v f := by
  induction h generalizing n with
  | @table x σ p v w f hσ ht hclean _ ih =>
    exact .table hσ ht hclean (ih ht.ready hx (ht.zeroTables hv.blocks hσ hz))
  | full hlt hσ h0 hfull => exact .full hlt hσ h0 hfull
  | @dirty x b v f hx262 hlt h2 houter hb hd _ =>
    obtain ⟨n, rfl⟩ : ∃ k, n = k + 1 := ⟨n - 1, by omega⟩
    exact absurd hz (not_zeroTables hx262 h2 houter hb hd)
  | last hp hlen => exact .last hp hlen
  | @pass x p base start v w f hp hlen _ ih =>
    have hlt := hp.lt
    obtain ⟨n, rfl⟩ : ∃ k, n = k + 1 := ⟨n - 1, by omega⟩
    refine .pass hp hlen (ih (n := n) (hp.ready.resume _) (by omega) ?_)
    rw [resume_fs, resume_len]
    exact hp.zeroTables hv.blocks hlen hz
  | done => exact .done

variable {P : FS g → Prop}

/-- **The induction over a write** that takes no level-1 block with leftovers.  What every store
to the slots of the file from data slot `x` on keeps is kept by the write. -/
theorem Writes.keeps (h : Writes NoLeftovers inum stop x v f) (hv : Ready inum v) (h0 : P v.fs)
    (hP : ∀ {s s' : FS g} {σ : Slot} {p : UInt32} {b : Block} {m : ℕ},
      s.SoundBlocks → (∃ y, x ≤ y ∧ σ ∈ way y) → P s → Stored inum σ p b m s s' → P s') :
    f.state.SoundBlocks ∧ P f.state := by
  induction h with
  | @table x σ p v w f hσ ht _ _ ih =>
    have hway : σ ∈ way x := List.mem_append_left _ hσ
    exact ih ht.ready (hP hv.blocks ⟨x, le_rfl, hway⟩ h0 ht.stored) hP
  | full => exact ⟨hv.blocks, h0⟩
  | dirty _ _ _ _ _ _ hL => exact hL.elim
  | @last x p base start v w hp hlen =>
    exact ⟨hp.ready.blocks, hP hv.blocks ⟨x, le_rfl, dataSlot_mem_way x⟩ h0 hp.stored⟩
  | @pass x p base start v w f hp hlen _ ih =>
    refine ih (hp.ready.resume _) ?_ fun hs ⟨y, hy, hσ⟩ => hP hs ⟨y, by omega, hσ⟩
    rw [resume_fs]
    exact hP hv.blocks ⟨x, le_rfl, dataSlot_mem_way x⟩ h0 hp.stored
  | done => exact ⟨hv.blocks, h0⟩

/-- The file is still one, in use, and the blocks are sound. -/
theorem Writes.keeps_file (h : Writes NoLeftovers inum stop x v f) (hv : Ready inum v) :
    f.state.SoundBlocks ∧ f.state.inodeMap inum = true ∧ f.state.isDir inum = false :=
  h.keeps (P := fun u => u.inodeMap inum = true ∧ u.isDir inum = false) hv ⟨hv.alloc, hv.file⟩
    fun _ _ hP hstored => ⟨by rw [hstored.inodeMap, hP.1], (hstored.isDir inum).trans hP.2⟩

/-! ## A write that takes no level-1 block -/

/-- No word of a free block can be read as the number of a block, not even as none. -/
def Unreadable (s : FS g) : Prop := ∀ y, s.Free y → ∀ j < 256, ¬ Readable g (s.disk y) j

theorem Stored.unreadable (hs : s.SoundBlocks) (h : Stored i σ p b n s s') (hbad : s.Unreadable) :
    s'.Unreadable := by
  intro y hy j hj
  rw [h.disk_of_free hs hy]
  exact hbad y (h.free hs hy) j hj

/-- An unreadable block does not hold zeros. -/
theorem Unreadable.disk_ne_zero (hbad : s.Unreadable) {y : ℕ} (hy : s.Free y) : s.disk y ≠ Block.zero := by
  intro hzero
  refine hbad y hy 0 (by omega) (Or.inl ?_)
  rw [hzero, Block.word_zero]

/-- If the free blocks are unreadable, a write that returns takes none of them for a level-1 block. -/
theorem Writes.not_isOuter (h : Writes (Readable g) inum stop x v f) (hv : Ready inum v)
    (hx : n + x = 65798) (hstop : 65798 ≤ stop) (hbad : v.fs.Unreadable) (htotal : 0 ≤ f.total) :
    ∀ σ ∈ v.fs.needs inum n x v.offset v.len, ¬ σ.IsOuter := by
  induction h generalizing n with
  | @table x σ p v w f hσ ht hclean _ ih =>
    have hnext := ih ht.ready hx (ht.stored.unreadable hv.blocks hbad) htotal
    cases n with
    | zero => simp [FS.needs, taken]
    | succ n =>
      rw [ht.len, ht.offset] at hnext
      rw [ht.needs hσ]
      intro τ hτ houter
      rcases List.mem_cons.1 hτ with rfl | hτ
      · rcases ht.stored.source with ⟨hp, hne, -⟩ | ⟨-, -, hlow⟩
        · exact hne (hp.symm.trans ht.empty)
        · exact hbad.disk_ne_zero hlow.free (hclean houter)
      · exact hnext τ hτ houter
  | full =>
    change (0 : ℤ) ≤ -ENOSPC at htotal
    exact absurd htotal (by decide)
  | dirty _ _ _ _ hb _ hL => exact absurd hL (hbad _ hb.free _ (Nat.mod_lt _ (by omega)))
  | @last x p base start v w hp hlen =>
    obtain ⟨n, rfl⟩ : ∃ k, n = k + 1 := ⟨n - 1, by have := hp.lt; omega⟩
    rw [hp.needs, if_pos hlen, List.append_nil]
    intro τ hτ houter
    split at hτ
    · obtain rfl := List.mem_singleton.1 hτ
      exact Slot.not_isOuter_dataSlot x houter
    · simp at hτ
  | @pass x p base start v w f hp hlen _ ih =>
    obtain ⟨n, rfl⟩ : ∃ k, n = k + 1 := ⟨n - 1, by have := hp.lt; omega⟩
    have hbad' : (resume (x + 1) w).fs.Unreadable := by
      rw [resume_fs]
      exact hp.stored.unreadable hv.blocks hbad
    have hnext := ih (n := n) (hp.ready.resume _) (by omega) hbad' htotal
    rw [resume_fs, resume_len] at hnext
    rw [hp.needs, if_neg hlen]
    intro τ hτ houter
    rcases List.mem_append.1 hτ with hτ | hτ
    · split at hτ
      · obtain rfl := List.mem_singleton.1 hτ
        exact Slot.not_isOuter_dataSlot x houter
      · simp at hτ
    · exact hnext τ hτ houter
  | done =>
    obtain rfl : n = 0 := by omega
    simp [FS.needs, taken]

/-- What every store to the file and every change of its time keeps is kept by `fs_write`. -/
theorem WriteResult.invariant {c : Context} {path : Path} {buf : ℕ → UInt8} {r : ℤ} (hwf : Wf s)
    (h : WriteResult c s path buf len offset r s') (hsafe : s.WriteSafe path len offset) (h0 : P s)
    (hP : ∀ i, s.resolve 1 path.tokens = .inr i → s.isDir i = false →
      ∀ {s s' : FS g} {σ : Slot} {p : UInt32} {b : Block} {m : ℕ}, Wf s → P s →
        Stored i σ p b m s s' → P s')
    (htouch : ∀ {s : FS g} (i : ℕ), Wf s → P s →
      P (s.setInode i { s.inodes i with mtime := c.now }).writeAllInodes) : Wf s' ∧ P s' := by
  cases h with
  | badPath => exact ⟨hwf, h0⟩
  | isDir => exact ⟨hwf, h0⟩
  | badOffset => exact ⟨hwf, h0⟩
  | @written i f e _ hr hf ho hw ht =>
    have hv := hwf.blocks.ready_writeVars (hwf.alloc_of_resolve hr) hf buf len offset
    have hclean := hw.clean hv (Nat.sub_add_cancel (by split <;> omega)) (hsafe i hr hf ho)
    obtain ⟨-, hwf', hP'⟩ := hclean.keeps (P := fun s => Wf s ∧ P s) hv ⟨hwf, h0⟩
      fun _ _ hk hstored => ⟨hstored.wf hk.1, hP i hr hf hk.1 hk.2 hstored⟩
    refine ⟨ht.wf hwf' (fun _ _ => rfl) (fun _ => rfl) (fun _ => rfl) (fun _ => rfl), ?_⟩
    cases ht with
    | badPath => exact hP'
    | touched => exact htouch _ hwf' hP'

end FS

end Fsx600
