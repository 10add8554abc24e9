import Fsx600.Spec.Preservation
import Fsx600.Spec.Writing

/-!
# Storing a block in a slot

Every change that `fs_write` makes to a file is of one kind: a slot of the file gets a block,
a free one if the slot was empty, and the block gets new contents.  `Stored` is that change,
whatever the slot, and all that the invariants need to know of it: the table of owners gains
at most this one entry (`Stored.owner`), and no block that another inode references is touched.

For a block of pointers this takes that the new block is filled with zeros.  The block
of a slot `indir1` or `indir2` is; that of a slot `outer` is what the disk held before.
-/

namespace Fsx600

open Function Ownership

namespace Slot

/-- The block of pointers that a slot stands in, and where. -/
def place : Slot → Option (Slot × ℕ)
  | level1 k => some (indir1, k)
  | outer k => some (indir2, k)
  | inner i k => some (outer i, k)
  | direct _ | indir1 | indir2 => none

/-- Entry `k` of a block of pointers, as a slot. -/
def child : Slot → ℕ → Slot
  | indir1, k => level1 k
  | indir2, k => outer k
  | outer i, k => inner i k
  | σ, _ => σ

/-- The slot exists: its numbers are those of array elements. -/
def Exists : Slot → Prop
  | direct k => k < 6
  | level1 k | outer k => k < 256
  | inner _ k => k < 256
  | indir1 | indir2 => True

theorem place_eq_some {σ τ : Slot} {k : ℕ} : σ.place = some (τ, k) ↔ τ.IsTable ∧ σ = τ.child k := by
  constructor
  · intro h
    cases σ <;> simp only [place, Option.some.injEq, Prod.mk.injEq, reduceCtorEq] at h <;>
      obtain ⟨rfl, rfl⟩ := h <;> exact ⟨trivial, rfl⟩
  · rintro ⟨hτ, rfl⟩
    cases τ <;> first | rfl | exact hτ.elim

theorem place_child {τ : Slot} (hτ : τ.IsTable) (k : ℕ) : (τ.child k).place = some (τ, k) :=
  place_eq_some.2 ⟨hτ, rfl⟩

theorem child_injective {τ : Slot} (hτ : τ.IsTable) {k m : ℕ} (h : τ.child k = τ.child m) : k = m := by
  have hp := (place_child hτ k).symm.trans (h ▸ place_child hτ m)
  exact (Prod.mk.inj (Option.some.inj hp)).2

theorem child_ne_self {τ : Slot} (hτ : τ.IsTable) (k : ℕ) : τ.child k ≠ τ := by
  cases τ <;> simp only [child, ne_eq, reduceCtorEq, not_false_eq_true] <;> exact hτ.elim

theorem lt_of_exists_child {τ : Slot} (hτ : τ.IsTable) {k : ℕ} (h : (τ.child k).Exists) : k < 256 := by
  cases τ <;> first | exact h | exact hτ.elim

end Slot

namespace Inode

theorem pointer_child (disk : ℕ → Block) (ino : Inode) {τ : Slot} (hτ : τ.IsTable) (k : ℕ) :
    ino.pointer disk (τ.child k) = tableWord disk (ino.pointer disk τ) k := by
  cases τ <;> first | rfl | exact hτ.elim

/-- Store a pointer that stands in the inode itself. -/
def setPointer (ino : Inode) (p : UInt32) : Slot → Inode
  | .direct k => ino.setDirect k p
  | .indir1 => { ino with indir1 := p }
  | .indir2 => { ino with indir2 := p }
  | .level1 _ | .outer _ | .inner _ _ => ino

section

variable {disk disk' : ℕ → Block} {ino ino' : Inode} {σ : Slot} {p : UInt32}

theorem directAt_setPointer (hσ : σ.Exists) (m : ℕ) :
    (ino.setPointer p σ).directAt m = if .direct m = σ then p else ino.directAt m := by
  cases σ with
  | direct k =>
    rw [setPointer, directAt_setDirect _ _ _ hσ]
    simp only [Slot.direct.injEq]
  | indir1 | indir2 | level1 | outer | inner => rfl

theorem indir1_setPointer : (ino.setPointer p σ).indir1 = if .indir1 = σ then p else ino.indir1 := by
  cases σ <;> rfl

theorem indir2_setPointer : (ino.setPointer p σ).indir2 = if .indir2 = σ then p else ino.indir2 := by
  cases σ <;> rfl

/-- What a pointer is after one is stored in a slot `σ`: what it was, but for that slot.
This holds for an entry of a block of pointers if it holds for the block. -/
theorem pointer_child_update (hσ : σ.Exists)
    (htable : ∀ τ k, σ.place = some (τ, k) → ino.pointer disk τ ≠ 0 ∧
      disk' (ino.pointer disk τ).toNat = (disk (ino.pointer disk τ).toNat).setWord k p)
    (hother : ∀ τ, τ.IsTable → (∀ k, σ.place ≠ some (τ, k)) → ino.pointer disk τ ≠ 0 →
      disk' (ino.pointer disk τ).toNat = disk (ino.pointer disk τ).toNat)
    (hnew : σ.IsTable → ino.pointer disk σ = 0 ∧ disk' p.toNat = Block.zero) {τ : Slot}
    (hτ : τ.IsTable) (ih : ino'.pointer disk' τ = update (ino.pointer disk) σ p τ) (k : ℕ) :
    ino'.pointer disk' (τ.child k) = update (ino.pointer disk) σ p (τ.child k) := by
  rw [pointer_child _ _ hτ, ih]
  rcases eq_or_ne τ σ with rfl | hne
  · -- the new block of pointers is empty, as the missing one was
    obtain ⟨hzero, hdisk⟩ := hnew hτ
    have hword : tableWord disk' p k = 0 := by
      by_cases hp : p = 0
      · rw [hp, tableWord_zero]
      · rw [tableWord_of_ne_zero hp, hdisk, Block.word_zero]
    rw [update_self, hword, update_of_ne (Slot.child_ne_self hτ k), pointer_child _ _ hτ, hzero,
      tableWord_zero]
  · rw [update_of_ne hne]
    by_cases hplace : ∃ m, σ.place = some (τ, m)
    · obtain ⟨m, hm⟩ := hplace
      obtain ⟨h0, hdisk⟩ := htable τ m hm
      obtain ⟨-, rfl⟩ := Slot.place_eq_some.1 hm
      rw [tableWord_of_ne_zero h0, hdisk]
      rcases eq_or_ne k m with rfl | hkm
      · rw [update_self, Block.word_setWord_self _ _ (Slot.lt_of_exists_child hτ hσ)]
      · rw [update_of_ne fun h => hkm (Slot.child_injective hτ h), Block.word_setWord_of_ne _ _ hkm,
          pointer_child _ _ hτ, tableWord_of_ne_zero h0]
    · have hk : τ.child k ≠ σ := fun h => hplace ⟨k, h ▸ Slot.place_child hτ k⟩
      rw [update_of_ne hk, pointer_child _ _ hτ]
      exact tableWord_congr (hother τ hτ (not_exists.mp hplace))

/-- **Storing a pointer** changes that pointer and no other. -/
theorem pointer_update (hσ : σ.Exists) (hdirect : ino'.direct = (ino.setPointer p σ).direct)
    (h1 : ino'.indir1 = (ino.setPointer p σ).indir1) (h2 : ino'.indir2 = (ino.setPointer p σ).indir2)
    (htable : ∀ τ k, σ.place = some (τ, k) → ino.pointer disk τ ≠ 0 ∧
      disk' (ino.pointer disk τ).toNat = (disk (ino.pointer disk τ).toNat).setWord k p)
    (hother : ∀ τ, τ.IsTable → (∀ k, σ.place ≠ some (τ, k)) → ino.pointer disk τ ≠ 0 →
      disk' (ino.pointer disk τ).toNat = disk (ino.pointer disk τ).toNat)
    (hnew : σ.IsTable → ino.pointer disk σ = 0 ∧ disk' p.toNat = Block.zero) :
    ino'.pointer disk' = update (ino.pointer disk) σ p := by
  have hchild : ∀ {τ : Slot}, τ.IsTable → ino'.pointer disk' τ = update (ino.pointer disk) σ p τ →
      ∀ k, ino'.pointer disk' (τ.child k) = update (ino.pointer disk) σ p (τ.child k) :=
    fun hτ ih k => pointer_child_update hσ htable hother hnew hτ ih k
  have hone : ino'.pointer disk' .indir1 = update (ino.pointer disk) σ p .indir1 := by
    rw [update_apply, pointer, h1, indir1_setPointer]
    rfl
  have htwo : ino'.pointer disk' .indir2 = update (ino.pointer disk) σ p .indir2 := by
    rw [update_apply, pointer, h2, indir2_setPointer]
    rfl
  have houter : ∀ i, ino'.pointer disk' (.outer i) = update (ino.pointer disk) σ p (.outer i) :=
    hchild (τ := .indir2) trivial htwo
  funext ρ
  cases ρ with
  | direct m =>
    have hfield : ino'.directAt m = (ino.setPointer p σ).directAt m := by
      rw [directAt, directAt, hdirect]
    rw [update_apply, pointer, hfield, directAt_setPointer hσ]
    rfl
  | indir1 => exact hone
  | level1 k => exact hchild (τ := .indir1) trivial hone k
  | indir2 => exact htwo
  | outer i => exact houter i
  | inner i k => exact hchild (τ := .outer i) trivial (houter i) k

end

end Inode

namespace FS

variable {g : Layout} {s s' : FS g} {i n : ℕ} {σ : Slot} {p : UInt32} {b : Block}

/-- The pointer in a slot of inode `i`. -/
def pointer (s : FS g) (i : ℕ) (σ : Slot) : UInt32 := (s.inodes i).pointer s.disk σ

/-- Slot `σ` of the file `i` holds block `p` after the step, the lowest free one if the slot
was empty; the block has the contents `b`, and the size of the file has grown by `n`. -/
structure Stored (i : ℕ) (σ : Slot) (p : UInt32) (b : Block) (n : ℕ) (s s' : FS g) : Prop where
  alloc : s.inodeMap i = true
  file : s.isDir i = false
  source : (s.pointer i σ = p ∧ p ≠ 0 ∧ ¬ σ.IsTable) ∨
    (s.pointer i σ = 0 ∧ p ≠ 0 ∧ s.LowestFree p.toNat)
  inodeMap : s'.inodeMap = s.inodeMap
  inodes : ∀ k, k ≠ i → s'.inodes k = s.inodes k
  mode : (s'.inodes i).mode = (s.inodes i).mode
  size : (s'.inodes i).size = (s.inodes i).size + Int32.ofNat n
  pointer : s'.pointer i = update (s.pointer i) σ p
  blockMap : s'.blockMap = update s.blockMap p.toNat true
  content : s'.disk p.toNat = b
  disk : ∀ x, g.startBlock ≤ x → x ≠ p.toNat →
    (∀ τ k, σ.place = some (τ, k) → x ≠ (s.pointer i τ).toNat) → s'.disk x = s.disk x
  /-- The blocks that are written. -/
  trace : ∃ w, s'.trace = w ++ s.trace ∧ ∀ x ∈ w, x = p.toNat ∨
    ∃ τ k, σ.place = some (τ, k) ∧ x = (s.pointer i τ).toNat

theorem refers_file (hf : s.isDir i = false) (σ : Slot) :
    s.refers i σ = if s.pointer i σ = 0 then none else some (s.pointer i σ).toNat := by
  rw [refers, if_neg (by simp [hf])]
  rfl

theorem refers_of_file (hf : s.isDir i = false) {b : ℕ} :
    s.refers i σ = some b ↔ s.pointer i σ ≠ 0 ∧ (s.pointer i σ).toNat = b :=
  refers_eq_some_of_file hf

/-- A pointer of an allocated file that is not zero. -/
theorem owner_of_pointer (hi : s.inodeMap i = true) (hf : s.isDir i = false) (hp : s.pointer i σ ≠ 0) :
    s.owner (i, σ) = some (s.pointer i σ).toNat :=
  owner_eq_some.2 ⟨hi, (refers_of_file hf).2 ⟨hp, rfl⟩⟩

/-- What a slot of an allocated file holds lies inside the image. -/
theorem Wf.pointer_lt (hwf : Wf s) (hi : s.inodeMap i = true) (hf : s.isDir i = false) (σ : Slot) :
    (s.pointer i σ).toNat < g.nblks := by
  have hle := g.regions_le
  by_cases h0 : s.pointer i σ = 0
  · rw [h0]
    exact Nat.lt_of_lt_of_le Nat.one_pos (by omega)
  · have huse := hwf.sound.used (owner_of_pointer hi hf h0)
    exact huse.2.1.trans_le hwf.numBlocks_le_nblks

/-- Two slots of a file hold two blocks. -/
theorem SoundBlocks.pointer_ne (hs : s.SoundBlocks) (hi : s.inodeMap i = true) (hf : s.isDir i = false) {τ : Slot}
    (hσ : s.pointer i σ ≠ 0) (hτ : s.pointer i τ ≠ 0) (hne : σ ≠ τ) :
    (s.pointer i σ).toNat ≠ (s.pointer i τ).toNat := by
  intro heq
  have hown := owner_of_pointer hi hf hσ
  rw [heq] at hown
  exact hne (congrArg Prod.snd (hs.sound.inj hown (owner_of_pointer hi hf hτ)))

/-- The block that is stored is not one that another slot holds. -/
theorem SoundBlocks.source_ne (hs : s.SoundBlocks) (hi : s.inodeMap i = true) (hf : s.isDir i = false)
    (hsource : (s.pointer i σ = p ∧ p ≠ 0 ∧ ¬ σ.IsTable) ∨
      (s.pointer i σ = 0 ∧ p ≠ 0 ∧ s.LowestFree p.toNat)) {k x : ℕ} {τ : Slot}
    (hx : s.owner (k, τ) = some x) (hne : (k, τ) ≠ (i, σ)) : x ≠ p.toNat := by
  rintro rfl
  rcases hsource with ⟨rfl, hp, -⟩ | ⟨-, -, hfree⟩
  · exact hne (hs.sound.inj hx (owner_of_pointer hi hf hp))
  · exact hfree.free.not_inUse (hs.sound.used hx)

/-- **How to store a block**: put its number in the slot, its contents in place, and leave the
rest alone. -/
theorem SoundBlocks.stored (hs : s.SoundBlocks) (hi : s.inodeMap i = true) (hf : s.isDir i = false) (hσ : σ.Exists)
    (hsource : (s.pointer i σ = p ∧ p ≠ 0 ∧ ¬ σ.IsTable) ∨
      (s.pointer i σ = 0 ∧ p ≠ 0 ∧ s.LowestFree p.toNat))
    (hmap : s'.inodeMap = s.inodeMap) {ino : Inode} (hinodes : s'.inodes = update s.inodes i ino)
    (hmode : ino.mode = (s.inodes i).mode) (hsize : ino.size = (s.inodes i).size + Int32.ofNat n)
    (hdirect : ino.direct = ((s.inodes i).setPointer p σ).direct)
    (h1 : ino.indir1 = ((s.inodes i).setPointer p σ).indir1)
    (h2 : ino.indir2 = ((s.inodes i).setPointer p σ).indir2)
    (hblockMap : s'.blockMap = s.blockMap ∧ s.pointer i σ ≠ 0 ∨
      s'.blockMap = update s.blockMap p.toNat true)
    (hcontent : s'.disk p.toNat = b) (hzero : σ.IsTable → b = Block.zero)
    (htable : ∀ τ k, σ.place = some (τ, k) → s.pointer i τ ≠ 0 ∧
      s'.disk (s.pointer i τ).toNat = (s.disk (s.pointer i τ).toNat).setWord k p)
    (hframe : ∀ x, g.startBlock ≤ x → x ≠ p.toNat →
      (∀ τ k, σ.place = some (τ, k) → x ≠ (s.pointer i τ).toNat) → s'.disk x = s.disk x)
    (htrace : ∃ w, s'.trace = w ++ s.trace ∧ ∀ x ∈ w, x = p.toNat ∨
      ∃ τ k, σ.place = some (τ, k) ∧ x = (s.pointer i τ).toNat) : Stored i σ p b n s s' := by
  have hself : s'.inodes i = ino := by rw [hinodes, update_self]
  refine ⟨hi, hf, hsource, hmap, fun k hk => by rw [hinodes, update_of_ne hk], by rw [hself, hmode],
    by rw [hself, hsize], ?_, ?_, hcontent, hframe, htrace⟩
  · funext ρ
    show (s'.inodes i).pointer s'.disk ρ = _
    rw [hself, Inode.pointer_update hσ hdirect h1 h2 htable (fun τ hτ hplace h0 => ?_) fun hσt => ?_]
    · rfl
    · have hτσ : τ ≠ σ := by
        rintro rfl
        rcases hsource with ⟨-, -, hnot⟩ | ⟨hz, -⟩
        · exact hnot hτ
        · exact h0 hz
      have hown := owner_of_pointer hi hf h0
      refine hframe _ (hs.sound.used hown).1 ?_ fun τ' k hk heq => ?_
      · exact hs.source_ne hi hf hsource hown fun h => hτσ (congrArg Prod.snd h)
      · have hne : τ ≠ τ' := by
          rintro rfl
          exact hplace k hk
        exact hs.pointer_ne hi hf h0 (htable τ' k hk).1 hne heq
    · rcases hsource with ⟨-, -, hnot⟩ | ⟨hz, -⟩
      · exact absurd hσt hnot
      · exact ⟨hz, hcontent.trans (hzero hσt)⟩
  · rcases hblockMap with ⟨hsame, h0⟩ | hnew
    · rcases hsource with ⟨rfl, -⟩ | ⟨hz, -⟩
      · rw [hsame, ← (hs.sound.used (owner_of_pointer hi hf h0)).2.2, update_eq_self]
      · exact absurd hz h0
    · exact hnew

namespace Stored

theorem ne_zero (h : Stored i σ p b n s s') : p ≠ 0 := by
  rcases h.source with h | h
  · exact h.2.1
  · exact h.2.1

theorem pointer_self (h : Stored i σ p b n s s') : s'.pointer i σ = p := by
  rw [h.pointer, update_self]

theorem self_ne_zero (h : Stored i σ p b n s s') : s'.pointer i σ ≠ 0 := by
  rw [h.pointer_self]
  exact h.ne_zero

/-- A slot that has a block keeps one. -/
theorem pointer_ne_zero (h : Stored i σ p b n s s') {τ : Slot} (h0 : s.pointer i τ ≠ 0) :
    s'.pointer i τ ≠ 0 := by
  rw [h.pointer, update_apply]
  split
  · exact h.ne_zero
  · exact h0

theorem isDir (h : Stored i σ p b n s s') (k : ℕ) : s'.isDir k = s.isDir k := by
  rcases eq_or_ne k i with rfl | hk
  · rw [FS.isDir, h.mode, FS.isDir]
  · rw [FS.isDir, h.inodes k hk, FS.isDir]

/-- A block that another slot holds is left alone, unless it is a block of pointers of the
file. -/
theorem disk_of_ne (hs : s.SoundBlocks) (h : Stored i σ p b n s s') {k x : ℕ} {τ : Slot}
    (hx : s.owner (k, τ) = some x) (hne : (k, τ) ≠ (i, σ)) (hτ : k = i → ¬ τ.IsTable) :
    s'.disk x = s.disk x := by
  have huse := hs.sound.used hx
  refine h.disk x huse.1 (hs.source_ne h.alloc h.file h.source hx hne) fun ρ m hm heq => ?_
  by_cases h0 : s.pointer i ρ = 0
  · exact absurd h0 (ne_zero_of_startBlock_le (heq ▸ huse.1))
  · have hown := owner_of_pointer h.alloc h.file h0
    rw [← heq] at hown
    obtain ⟨rfl, rfl⟩ := Prod.mk.inj (hs.sound.inj hx hown)
    exact hτ rfl (Slot.place_eq_some.1 hm).1

/-- A block that another inode references is left alone. -/
theorem disk_of_owner (hs : s.SoundBlocks) (h : Stored i σ p b n s s') {k x : ℕ} {τ : Slot}
    (hx : s.owner (k, τ) = some x) (hk : k ≠ i) : s'.disk x = s.disk x :=
  h.disk_of_ne hs hx (fun heq => hk (congrArg Prod.fst heq)) fun heq => absurd heq hk

theorem refers_of_ne (hs : s.SoundBlocks) (h : Stored i σ p b n s s') {k : ℕ} (hi : s.inodeMap k = true)
    (hk : k ≠ i) : s'.refers k = s.refers k :=
  refers_congr (h.isDir k) (by rw [h.inodes k hk]) (by rw [h.inodes k hk]) (by rw [h.inodes k hk])
    fun _ _ _ hx => h.disk_of_owner hs (owner_eq_some.2 ⟨hi, hx⟩) hk

theorem refers_self (h : Stored i σ p b n s s') : s'.refers i = update (s.refers i) σ (some p.toNat) := by
  funext τ
  rw [refers_file ((h.isDir i).trans h.file), h.pointer]
  rcases eq_or_ne τ σ with rfl | hτ
  · rw [update_self, update_self, if_neg h.ne_zero]
  · rw [update_of_ne hτ, update_of_ne hτ, refers_file h.file]

/-- **The owners after storing a block.** -/
theorem owner (hs : s.SoundBlocks) (h : Stored i σ p b n s s') :
    s'.owner = update s.owner (i, σ) (some p.toNat) := by
  funext x
  obtain ⟨k, τ⟩ := x
  rw [FS.owner, h.inodeMap]
  by_cases hk : s.inodeMap k = true
  · rw [if_pos hk]
    rcases eq_or_ne k i with rfl | hki
    · rw [h.refers_self]
      rcases eq_or_ne τ σ with rfl | hτ
      · rw [update_self, update_self]
      · rw [update_of_ne hτ, update_of_ne (fun h => hτ (congrArg Prod.snd h)), FS.owner, if_pos hk]
    · rw [h.refers_of_ne hs hk hki, update_of_ne (fun h => hki (congrArg Prod.fst h)), FS.owner,
        if_pos hk]
  · have hki : k ≠ i := fun heq => hk (heq ▸ h.alloc)
    rw [if_neg hk, update_of_ne (fun h => hki (congrArg Prod.fst h)), FS.owner, if_neg hk]

theorem inUse_iff (hs : s.SoundBlocks) (h : Stored i σ p b n s s') (x : ℕ) :
    s'.InUse x ↔ s.InUse x ∨ x = p.toNat := by
  have hp : g.startBlock ≤ p.toNat ∧ p.toNat < g.maxNumBlocks := by
    rcases h.source with ⟨rfl, h0, -⟩ | ⟨-, -, hfree⟩
    · have huse := hs.sound.used (owner_of_pointer h.alloc h.file h0)
      exact ⟨huse.1, huse.2.1⟩
    · exact ⟨hfree.free.1, hfree.free.2.1⟩
  rw [InUse, InUse, h.blockMap]
  rcases eq_or_ne x p.toNat with rfl | hx
  · simp [hp.1, hp.2]
  · rw [update_of_ne hx]
    simp [hx]

theorem sound (hs : s.SoundBlocks) (h : Stored i σ p b n s s') : Sound s'.owner s'.InUse := by
  have hown := h.owner hs
  have hused : ∀ x, s.InUse x → s'.InUse x := fun x hx => (h.inUse_iff hs x).2 (Or.inl hx)
  rcases h.source with ⟨hp, h0, -⟩ | ⟨-, -, hfree⟩
  · have hsame : s'.owner = s.owner := by
      have hi := owner_of_pointer h.alloc h.file (hp.symm ▸ h0 : s.pointer i σ ≠ 0)
      rw [hown, ← hp, ← hi, update_eq_self]
    rw [hsame]
    exact hs.sound.release (fun _ _ => id) fun _ x _ => hused x
  · refine hs.sound.attach (x := (i, σ)) hfree.free.not_inUse (fun x y hy => ?_) hused
      ((h.inUse_iff hs _).2 (Or.inr rfl))
    rw [hown, update_apply] at hy
    split at hy
    · next hx => exact Or.inr ⟨hx, (Option.some.inj hy).symm⟩
    · exact Or.inl hy

theorem dirBlock (hs : s.SoundBlocks) (h : Stored i σ p b n s s') {d : ℕ} (hd : s.AllocDir d) :
    s'.dirBlock d = s.dirBlock d := by
  have hdi : d ≠ i := by
    rintro rfl
    exact Bool.false_ne_true (h.file.symm.trans hd.2)
  rw [FS.dirBlock, h.inodes d hdi, h.disk_of_owner hs (owner_dir hd) hdi, FS.dirBlock]

theorem blocks (hs : s.SoundBlocks) (h : Stored i σ p b n s s') : s'.SoundBlocks :=
  ⟨hs.numBlocks_lt, h.sound hs⟩

/-- **Storing a block keeps a state well formed.** -/
theorem wf (hwf : Wf s) (h : Stored i σ p b n s s') : Wf s' :=
  hwf.relabel (hwf.relabelled_of_dirBlock h.inodeMap (fun k _ => h.isDir k) fun _ hd => h.dirBlock hwf.blocks hd)
    (h.sound hwf.blocks)

/-- Nothing is leaked: the new block has an owner, and no block loses its own. -/
theorem covered (hs : s.SoundBlocks) (hc : Covered s.owner s.InUse) (h : Stored i σ p b n s s') :
    Covered s'.owner s'.InUse := by
  refine hc.step (fun x hx => ?_) fun x y hy _ => ?_
  · rcases (h.inUse_iff hs x).1 hx with hx | rfl
    · exact Or.inl hx
    · exact Or.inr ⟨(i, σ), by rw [h.owner hs, update_self]⟩
  · rw [h.owner hs]
    rcases eq_or_ne x (i, σ) with rfl | hx
    · rcases h.source with ⟨hp, h0, -⟩ | ⟨hz, -⟩
      · refine ⟨(i, σ), ?_⟩
        rw [update_self, ← hp, ← owner_of_pointer h.alloc h.file (hp.symm ▸ h0), hy]
      · have hy' := (refers_of_file h.file).1 (owner_eq_some.1 hy).2
        exact absurd hz hy'.1
    · exact ⟨x, by rw [update_of_ne hx, hy]⟩

end Stored

end FS

end Fsx600
