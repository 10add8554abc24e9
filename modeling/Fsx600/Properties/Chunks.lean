import Fsx600.Spec.Appending
import Fsx600.Spec.Naming
import Fsx600.Spec.Intact
import Fsx600.Model.Calls

/-!
# Writing a file in chunks

`do_put` creates a file and writes it in chunks, each at the offset where the one before it
has ended.  However the bytes are cut, the file ends up with the same contents in the same
number of blocks, one for every 1024 bytes and one more for `indir_1` past the sixth, and no
other file notices.

`Written` is what holds between two writes, and `Written.write` is one write; the rest is
the induction over the chunks.
-/

namespace Fsx600

open Checked Function

/-- A buffer, and how many bytes of it are to be written. -/
structure Chunk where
  buf : ℕ → UInt8
  len : ℕ

/-- The bytes to be written. -/
def Chunk.bytes (d : Chunk) : List UInt8 := (List.range d.len).map d.buf

@[simp] theorem Chunk.length_bytes (d : Chunk) : d.bytes.length = d.len := by simp [bytes]

/-- The blocks it takes to hold a file of `n` bytes, at most `262 * 1024`. -/
def fileBlocks (n : ℕ) : ℕ := (n + 1023) / 1024 + if n > 6144 then 1 else 0

theorem fileBlocks_mono {n m : ℕ} (h : n ≤ m) : fileBlocks n ≤ fileBlocks m := by
  unfold fileBlocks
  split_ifs <;> omega

namespace FS

variable {g : Layout} {s s' t : FS g} {c : Context} {path : Path} {i n m : ℕ} {D : ℕ → UInt8}
  {L : Block → ℕ → Prop}

/-- The writes of `do_put`, from `offset` on, and what each of them returns. -/
def writeChunks (s : FS g) (c : ℕ → Context) (path : Path) :
    ℕ → List Chunk → Except Fault (List ℤ × FS g)
  | _, [] => .ok ([], s)
  | offset, d :: rest => do
    let (val, s) ← s.fsWrite (c offset) path d.buf d.len offset
    let (vals, s) ← s.writeChunks c path (offset + d.len) rest
    .ok (val :: vals, s)

/-! ## One write -/

/-- What a write to the file `i` leaves alone. -/
structure Beside (i : ℕ) (s t : FS g) : Prop where
  inodeMap : t.inodeMap = s.inodeMap
  isDir : ∀ k, t.isDir k = s.isDir k
  dirBlock : ∀ d, s.AllocDir d → t.dirBlock d = s.dirBlock d
  others : ∀ k σ b, k ≠ i → s.owner (k, σ) = some b → t.owner (k, σ) = some b ∧ t.disk b = s.disk b

theorem Beside.refl (i : ℕ) (s : FS g) : Beside i s s :=
  ⟨rfl, fun _ => rfl, fun _ _ => rfl, fun _ _ _ _ h => ⟨h, rfl⟩⟩

theorem Beside.allocDir (h : Beside i s t) {d : ℕ} (hd : s.AllocDir d) : t.AllocDir d := by
  rw [AllocDir, h.inodeMap, h.isDir]
  exact hd

theorem Beside.trans (h : Beside i s t) (h' : Beside i t s') : Beside i s s' where
  inodeMap := h'.inodeMap.trans h.inodeMap
  isDir := fun k => (h'.isDir k).trans (h.isDir k)
  dirBlock := fun d hd => (h'.dirBlock d (h.allocDir hd)).trans (h.dirBlock d hd)
  others := fun k σ b hk hb => by
    obtain ⟨hown, hdisk⟩ := h.others k σ b hk hb
    obtain ⟨hown', hdisk'⟩ := h'.others k σ b hk hown
    exact ⟨hown', hdisk'.trans hdisk⟩

theorem Stored.beside (hs : s.SoundBlocks) {σ : Slot} {p : UInt32} {b : Block} (h : Stored i σ p b n s t) :
    Beside i s t where
  inodeMap := h.inodeMap
  isDir := h.isDir
  dirBlock := fun _ hd => h.dirBlock hs hd
  others := fun k τ x hk hx => by
    refine ⟨?_, h.disk_of_owner hs hx hk⟩
    rw [h.owner hs, update_of_ne fun heq => hk (congrArg Prod.fst heq)]
    exact hx

theorem beside_touch (hs : s.SoundBlocks) (i : ℕ) (now : UInt32) :
    Beside i s (s.setInode i { s.inodes i with mtime := now }).writeAllInodes where
  inodeMap := rfl
  isDir := isDir_touch (by rfl)
  dirBlock := fun _ hd => hs.dirBlock_touch (by rfl) hd
  others := fun k σ b _ hb => by
    have howner : (s.setInode i { s.inodes i with mtime := now }).writeAllInodes.owner = s.owner :=
      hs.owner_touch rfl rfl rfl rfl
    rw [howner]
    exact ⟨hb, disk_writeAllInodes _ (hs.sound.used hb).1⟩

/-- Since `s`, the first `n` bytes of `D` have been written to the new file `i` at `path`. -/
structure Written (path : Path) (i : ℕ) (D : ℕ → UInt8) (n : ℕ) (s t : FS g) : Prop where
  wf : WellFormed t
  resolve : t.resolve 1 path.tokens = .inr i
  file : t.isDir i = false
  contents : Prefix i D n t
  freeCount : t.freeCount + fileBlocks n = s.freeCount
  indir1 : t.pointer i .indir1 ≠ 0 → 6144 < n
  beside : Beside i s t

/-- The blocks that the next write takes. -/
theorem Written.toTake (h : Written path i D n s t) (hnm : n ≤ m) :
    t.toTake i n m + fileBlocks n = fileBlocks m := by
  have hind : t.pointer i .indir1 = 0 ↔ ¬ 6144 < n := by
    constructor
    · intro h0 hlt
      refine pointer_tables_ne_zero ((h.contents.mapped 6).2 (by omega)) .indir1 ?_ h0
      simp [tables]
    · intro hlt
      by_contra h0
      exact hlt (h.indir1 h0)
  rw [FS.toTake, dataBlocks, dataBlocks, fileBlocks, fileBlocks, if_congr (and_congr_left' hind) rfl rfl]
  split_ifs <;> omega

/-- The file has grown, and no other inode was touched. -/
theorem Written.grown (h : Written path i D n s t) (hnm : n ≤ m) (hwf : Wf s')
    (hgrown : Grown i D m (t.toTake i n m) t s') (hb : Beside i t s') : Written path i D m s s' where
  wf := ⟨hwf, h.wf.inodes_ge⟩
  resolve := (h.wf.resolve_congr hb.dirBlock _).trans h.resolve
  file := (hb.isDir i).trans h.file
  contents := hgrown.contents
  freeCount := by
    have htake := h.toTake hnm
    have hcount := h.freeCount
    have hcount' := hgrown.freeCount
    omega
  indir1 := fun h1 => by
    rcases hgrown.indir1 h1 with h1 | hm
    · exact (h.indir1 h1).trans_le hnm
    · exact hm
  beside := h.beside.trans hb

/-- The new time at the end of a write. -/
theorem Written.touch (h : Written path i D n s t) (now : UInt32) :
    Written path i D n s (t.setInode i { t.inodes i with mtime := now }).writeAllInodes := by
  have hi := h.wf.alloc_of_resolve h.resolve
  have hintact := intact_touch h.wf.blocks hi h.file i now
  have hpointer := pointer_touch h.wf.blocks hi h.file i now
  have hb := beside_touch h.wf.blocks i now
  refine ⟨⟨h.wf.touch rfl rfl rfl rfl, h.wf.inodes_ge⟩, ?_, ?_, ⟨?_, fun x => ?_, fun x hx => ?_⟩,
    h.freeCount, ?_, h.beside.trans hb⟩
  · rw [← h.resolve]
    exact h.wf.resolve_congr hb.dirBlock _
  · rw [hb.isDir, h.file]
  · rw [hintact.size, h.contents.size]
  · rw [hpointer]
    exact h.contents.mapped x
  · rw [hintact.byteAt]
    exact h.contents.byteAt x hx
  · rw [hpointer]
    exact h.indir1

section Write

variable (h : Written path i D n s t) {d : Chunk} (hlen : 0 < d.len) (hle : n + d.len ≤ 262 * 1024)
  (hbuf : ∀ y < d.len, d.buf y = D (n + y)) (hfree : fileBlocks (n + d.len) ≤ s.freeCount)
include h hlen hle hbuf hfree

omit h hbuf hfree in
/-- The blocks that it needs: as many as it takes to hold the bytes, and no level-1 block. -/
theorem Prefix.needs (hpre : Prefix i D n t) :
    (t.needs i (65798 - n / 1024) (n / 1024) n d.len).length = t.toTake i n (n + d.len) ∧
      t.ZeroTables (t.needs i (65798 - n / 1024) (n / 1024) n d.len) := by
  have hempty : ∀ y, decide (t.pointer i (dataSlot y) = 0) = true ↔ n ≤ 1024 * y := by
    intro y
    have hmapped := hpre.mapped y
    rw [decide_eq_true_eq, ← not_iff_not, ← ne_eq, hmapped]
    omega
  obtain ⟨hcost, hnone⟩ := taken_below (e := fun σ => decide (t.pointer i σ = 0)) n
    (Nat.sub_add_cancel (show n / 1024 ≤ 65798 by omega)) rfl (fun _ => rfl)
    hlen rfl hle hempty
  refine ⟨?_, fun y hy ho => absurd ho (hnone y.1 (List.of_mem_zip hy).1)⟩
  rw [FS.needs, hcost, FS.toTake]
  simp only [decide_eq_true_eq]

/-- The loops of a write at the end of the file. -/
theorem Written.loops {f : Flow g} (hw : Writes L i 65798 (n / 1024) (t.writeVars i d.buf d.len n) f) :
    ∃ u, f = .cleanup (d.len : ℤ) u ∧ Written path i D (n + d.len) s u := by
  have hi := h.wf.alloc_of_resolve h.resolve
  have hv := h.wf.blocks.ready_writeVars hi h.file d.buf d.len n
  have hoffset : (t.writeVars i d.buf d.len n).offset = n := if_pos (by omega)
  have htake := h.toTake (Nat.le_add_right n d.len)
  have hcount := h.freeCount
  have hsplit : 65798 - n / 1024 + n / 1024 = 65798 := by omega
  obtain ⟨hcost, hz⟩ : ((t.writeVars i d.buf d.len n).fs.needs i (65798 - n / 1024) (n / 1024)
        (t.writeVars i d.buf d.len n).offset (t.writeVars i d.buf d.len n).len).length =
          t.toTake i n (n + d.len) ∧
      (t.writeVars i d.buf d.len n).fs.ZeroTables ((t.writeVars i d.buf d.len n).fs.needs i
        (65798 - n / 1024) (n / 1024) (t.writeVars i d.buf d.len n).offset
        (t.writeVars i d.buf d.len n).len) := by
    rw [hoffset]
    exact h.contents.needs hlen hle
  have hclean := hw.clean hv hsplit hz
  obtain ⟨-, hwf, hbeside⟩ := hclean.keeps (P := fun u => Wf u ∧ Beside i t u) hv
    ⟨h.wf.toWf, .refl i t⟩ fun _ _ hP hstored =>
      ⟨hstored.wf hP.1, hP.2.trans (hstored.beside hP.1.blocks)⟩
  obtain ⟨u, rfl, hgrown⟩ := hclean.append hv h.contents rfl (fun _ => by rw [hoffset]) hlen rfl
    (show n + d.len ≤ 65798 * 1024 by omega) le_rfl hbuf hsplit
    (hcost.trans_le (show t.toTake i n (n + d.len) ≤ t.freeCount by omega))
  rw [hcost] at hgrown
  refine ⟨u, ?_, h.grown (Nat.le_add_right n d.len) hwf hgrown hbeside⟩
  show Flow.cleanup ((0 + d.len : ℕ) : ℤ) u = _
  rw [Nat.zero_add]

/-- A write at the end of the file returns, since its loops end it in the blocks below 262. -/
theorem Written.write_returns (hp : path.Proper) (c : Context) :
    Returns (t.fsWrite c path d.buf d.len n) := by
  have hi := h.wf.alloc_of_resolve h.resolve
  have hv := h.wf.blocks.ready_writeVars hi h.file d.buf d.len n
  have hlt : n / 1024 < 65798 := by omega
  have hvars : t.writeVars i d.buf d.len n = ⟨t, t.inodes i, d.buf, d.len, n, 0⟩ := by
    rw [writeVars, if_pos hlt]
  refine h.wf.fsWrite_returns hp fun i' hr _ => ?_
  obtain rfl := Sum.inr.inj (h.resolve.symm.trans hr)
  rw [hvars] at hv
  obtain ⟨f, hf⟩ := hv.writeBlocks_returns h.wf.sized hlt fun f hw => by
    rw [← hvars] at hw
    obtain ⟨u, hu, -⟩ := h.loops hlen hle hbuf hfree hw
    exact ⟨_, u, hu⟩
  have hw := writeBlocks_writes hv hf
  rw [if_pos hlt, if_pos hlt, ← hvars] at hw
  obtain ⟨u, rfl, hwritten⟩ := h.loops hlen hle hbuf hfree hw
  exact ⟨_, hf, hwritten.wf.toWf⟩

/-- If it returns, it has written all. -/
theorem Written.write_of_ok {r : ℤ} {u : FS g} (hu : t.fsWrite c path d.buf d.len n = .ok (r, u)) :
    r = d.len ∧ Written path i D (n + d.len) s u := by
  have hlt : n / 1024 < 65798 := by omega
  have hsize : (t.inodes i).size.toInt = n := by
    rw [h.contents.size, Int32.toInt_ofNat_of_lt (by omega)]
  cases h.wf.fsWrite_ok hu with
  | badPath hr => exact absurd (h.resolve.symm.trans hr) (by simp)
  | isDir hr hd =>
    obtain rfl := Sum.inr.inj (h.resolve.symm.trans hr)
    exact absurd (h.file.symm.trans hd) Bool.false_ne_true
  | badOffset hr _ ho =>
    obtain rfl := Sum.inr.inj (h.resolve.symm.trans hr)
    omega
  | @written i' f e _ hr _ _ hw ht =>
    obtain rfl := Sum.inr.inj (h.resolve.symm.trans hr)
    rw [if_pos hlt] at hw
    obtain ⟨w, rfl, hwritten⟩ := h.loops hlen hle hbuf hfree hw
    refine ⟨rfl, ?_⟩
    rw [Flow.state_cleanup] at ht
    cases ht with
    | badPath hr => exact absurd (hwritten.resolve.symm.trans hr) (by simp)
    | touched hr =>
      obtain rfl := Sum.inr.inj (hwritten.resolve.symm.trans hr)
      exact hwritten.touch c.now

/-- **One write at the end of the file.** -/
theorem Written.write (hp : path.Proper) (c : Context) :
    ∃ u, t.fsWrite c path d.buf d.len n = .ok (d.len, u) ∧ Written path i D (n + d.len) s u := by
  obtain ⟨⟨r, u⟩, hu⟩ := h.write_returns hlen hle hbuf hfree hp c
  obtain ⟨rfl, hwritten⟩ := h.write_of_ok hlen hle hbuf hfree hu
  exact ⟨u, hu, hwritten⟩

end Write

/-! ## All the writes -/

/-- The writes of all chunks, from whatever has been written so far. -/
theorem Written.writeChunks (h : Written path i D n s t) (hp : path.Proper) (c : ℕ → Context)
    {chunks : List Chunk} (hne : ∀ d ∈ chunks, 0 < d.len) {bytes : List UInt8}
    (hbytes : chunks.flatMap Chunk.bytes = bytes) (hle : n + bytes.length ≤ 262 * 1024)
    (hD : ∀ y < bytes.length, bytes[y]? = some (D (n + y)))
    (hfree : fileBlocks (n + bytes.length) ≤ s.freeCount) :
    ∃ u, t.writeChunks c path n chunks = .ok (chunks.map fun d => (d.len : ℤ), u) ∧
      Written path i D (n + bytes.length) s u := by
  induction chunks generalizing n t bytes with
  | nil =>
    subst hbytes
    exact ⟨t, rfl, h⟩
  | cons d rest ih =>
    rw [List.flatMap_cons] at hbytes
    subst hbytes
    rw [List.length_append, Chunk.length_bytes] at hle hD hfree
    have hbuf : ∀ y < d.len, d.buf y = D (n + y) := fun y hy => by
      have hy' := hD y (by omega)
      rw [List.getElem?_append_left (by simpa using hy), Chunk.bytes] at hy'
      simpa [hy] using hy'
    obtain ⟨w, hw, hwritten⟩ := h.write (hne d List.mem_cons_self) (by omega) hbuf
      ((fileBlocks_mono (by omega)).trans hfree) hp (c n)
    obtain ⟨u, hu, hwritten'⟩ := ih hwritten (fun e he => hne e (List.mem_cons_of_mem _ he)) rfl (by omega)
      (fun y hy => by
        have hy' := hD (d.len + y) (by omega)
        rw [List.getElem?_append_right (by simp)] at hy'
        simpa [Nat.add_assoc] using hy')
      (by rwa [Nat.add_assoc])
    refine ⟨u, ?_, ?_⟩
    · rw [FS.writeChunks, hw, ok_bind]
      dsimp only
      rw [hu, ok_bind]
      rfl
    · rw [List.length_append, Chunk.length_bytes, ← Nat.add_assoc]
      exact hwritten'

/-- A new file: nothing has been written to it. -/
theorem Created.written (hwf : WellFormed s) {mode : UInt32} {p j : ℕ} {name : Name} {fresh : Option ℕ}
    (hp : s.Parent path p name) (hreg : sIsReg mode = true) (h : Created c mode p j i name fresh s t)
    (D : ℕ → UInt8) : Written path i D 0 t t := by
  have hdir : sIsDir mode = false := sIsDir_of_regular ((sIsReg_iff _).1 hreg)
  obtain rfl : fresh = none := by
    rw [← Option.not_isSome_iff_eq_none, h.fresh_isSome, hdir]
    decide
  have hino : t.inodes i = newInode c mode (s.inodes i) := by rw [h.inodes, update_self, createdInode]
  have hzero : ∀ σ, t.pointer i σ = 0 := fun σ => by
    show (t.inodes i).pointer t.disk σ = 0
    rw [hino]
    exact (newInode_empty mode _).pointer t.disk σ
  refine ⟨⟨hwf.created h, hwf.inodes_ge⟩, h.resolve hwf.toWf hp, h.isDir_self.trans hdir,
    ⟨?_, fun x => ?_, fun x hx => ?_⟩, rfl, fun h0 => absurd (hzero _) h0, .refl i t⟩
  · rw [hino]
    rfl
  · simp [hzero]
  · exact absurd hx (Nat.not_lt_zero x)

/-- **Sequential writing does not depend on the chunks.**  A regular file just created that is
written from the start, in chunks cut in any way, holds the bytes, in exactly the blocks they
need, and the blocks of the other inodes are as they were. -/
theorem contents_of_writeChunks (hs : WellFormed s) (hp : path.Proper) {mode : UInt32}
    (hreg : sIsReg mode = true) (hmk : s.fsMknod c path mode = .ok (0, t)) (bytes : List UInt8)
    (hle : bytes.length ≤ 262 * 1024) (chunks : List Chunk)
    (hbytes : chunks.flatMap Chunk.bytes = bytes) (hne : ∀ d ∈ chunks, 0 < d.len)
    (hfree : fileBlocks bytes.length ≤ t.freeCount) (cs : ℕ → Context) :
    ∃ i u, t.resolve 1 path.tokens = .inr i ∧
      t.writeChunks cs path 0 chunks = .ok (chunks.map fun d => (d.len : ℤ), u) ∧
      (u.inodes i).size.toInt = bytes.length ∧ (∀ x < bytes.length, u.byteAt i x = bytes[x]?) ∧
      u.usedCount = t.usedCount + fileBlocks bytes.length ∧
      ∀ k σ b, k ≠ i → t.owner (k, σ) = some b → u.disk b = t.disk b := by
  obtain ⟨p, j, i, name, fresh, hpar, hc⟩ : ∃ p j i name fresh, s.Parent path p name ∧
      Created c mode p j i name fresh s t := by
    generalize hr : (0 : ℤ) = r at hmk
    cases fsMknod_ok hs.toWf hmk with
    | badPath he =>
      have := error_neg he
      omega
    | «exists» => exact absurd hr (by decide)
    | noInode => exact absurd hr (by decide)
    | noSlot => exact absurd hr (by decide)
    | noBlock => exact absurd hr (by decide)
    | created hpar hc => exact ⟨_, _, _, _, _, hpar, hc⟩
  have hnew := hc.written hs hpar hreg fun y => bytes.getD y 0
  obtain ⟨u, hu, hw⟩ := hnew.writeChunks hp cs hne hbytes (by omega)
    (fun y hy => by simp [hy]) (by rwa [Nat.zero_add])
  rw [Nat.zero_add] at hw
  refine ⟨i, u, hnew.resolve, hu, ?_, fun x hx => ?_, ?_, fun k σ b hk hb => (hw.beside.others k σ b hk hb).2⟩
  · rw [hw.contents.size, Int32.toInt_ofNat_of_lt (by omega)]
  · rw [hw.contents.byteAt x hx]
    simp [hx]
  · have h1 := usedCount_add_freeCount t
    have h2 := usedCount_add_freeCount u
    have h3 := hw.freeCount
    omega

/-- 7000 bytes in three chunks; the second one runs over a block, and past the sixth. -/
def threeChunks : List Chunk := [⟨fun _ => 1, 1000⟩, ⟨fun _ => 2, 5500⟩, ⟨fun _ => 3, 500⟩]

/-- The three chunks written to a new file take eight blocks. -/
theorem contents_of_threeChunks : ∃ t i u,
    (Mkfs.fresh Mkfs.formattable_256 0).fsMknod ⟨1000, 1000, 0⟩ ⟨[47, 97], by decide⟩ 0x81A4 = .ok (0, t) ∧
      t.writeChunks (fun _ => ⟨1000, 1000, 0⟩) ⟨[47, 97], by decide⟩ 0 threeChunks =
        .ok ([1000, 5500, 500], u) ∧
      (u.inodes i).size.toInt = 7000 ∧ u.usedCount = t.usedCount + 8 := by
  have hend : endsIn (fun t => decide (8 ≤ t.freeCount)) ((Mkfs.fresh Mkfs.formattable_256 0).execAll
      ⟨1000, 1000, 0⟩ [.mknod ⟨[47, 97], by decide⟩ 0x81A4]) = true := by
    decide +kernel
  have hret : returned ((Mkfs.fresh Mkfs.formattable_256 0).fsMknod ⟨1000, 1000, 0⟩
      ⟨[47, 97], by decide⟩ 0x81A4) = some 0 := by
    decide +kernel
  obtain ⟨t, ht⟩ := exists_of_returned hret
  have hfree : 8 ≤ t.freeCount := by
    rw [execAll, exec, ht] at hend
    exact of_decide_eq_true hend
  have hlen : (threeChunks.flatMap Chunk.bytes).length = 7000 := by simp [threeChunks]
  have hp : Path.Proper ⟨[47, 97], by decide⟩ := by decide +kernel
  obtain ⟨i, u, -, hu, hsize, -, hused, -⟩ := contents_of_writeChunks
    (Mkfs.wellFormed_fresh Mkfs.formattable_256 0 (by decide)) hp (by decide) ht
    (threeChunks.flatMap Chunk.bytes) (by rw [hlen]; decide) threeChunks rfl (by decide)
    (by rw [hlen]; exact hfree) fun _ => ⟨1000, 1000, 0⟩
  rw [hlen] at hsize hused
  exact ⟨t, i, u, ht, hu, hsize, hused⟩

end FS

end Fsx600
