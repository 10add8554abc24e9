import Fsx600.Spec.Taken
import Fsx600.Spec.Returns
import Fsx600.Model.Read

/-!
# Reading as one loop

The three loops of `fs_read`, one of them nested, with the `goto`s into them and the
fall-through between them, are one loop over the data slots of the file, `readSlots`: it
fetches the block of a slot and copies from it, until the copying has come to its end.  That
is `readBlocks_eq`.

`Loaded` is the invariant of that loop, byte by byte.
-/

namespace Fsx600

open Checked Function

/-- Control goes to the code below a loop if the loop has not ended the read. -/
def ReadFlow.andThen (below : ReadVars → Except Fault ReadFlow) : ReadFlow → Except Fault ReadFlow
  | .cleanup v => .ok (.cleanup v)
  | .next v => below v

/-- The variables with `cnt_offset` at the start of data slot `x`. -/
def ReadVars.startAt (v : ReadVars) (x : ℕ) : ReadVars := { v with cntOffset := x * 1024 }

/-- The second and the third loop begin with `cnt_offset` at their first data slot. -/
def ReadVars.enter (v : ReadVars) (x : ℕ) : ReadVars :=
  if x = 6 ∨ x = 262 then v.startAt x else v

namespace FS

variable {g : Layout} (s : FS g) (inode : Inode) (offset : ℕ)

/-- The block that `fs_read` takes for data slot `x`.  Whether there is one it does not
ask. -/
def fetch (x : ℕ) : Except Fault Block :=
  if x < 6 then s.readBlock (inode.directAt x).toNat
  else if x < 262 then do
    let indirect1 ← s.readBlock inode.indir1.toNat
    s.readBlock (indirect1.word (x - 6)).toNat
  else do
    let indirect2 ← s.readBlock inode.indir2.toNat
    let indirect1 ← s.readBlock (indirect2.word ((x - 262) / 256)).toNat
    s.readBlock (indirect1.word ((x - 262) % 256)).toNat

/-- The loop over `n` data slots, from `x` on. -/
def readSlots : ℕ → ℕ → ReadVars → Except Fault ReadFlow
  | 0, _, v => .ok (.next v)
  | n + 1, x, v => do
    let block ← s.fetch inode x
    match readBytes inode.size offset block 1024 0 v with
    | .cleanup v => .ok (.cleanup v)
    | .next v => readSlots n (x + 1) (v.enter (x + 1))

variable {s inode offset} {n m k i j x y stop : ℕ} {v : ReadVars}

/-! ## The loops -/

/-- A loop over pointers is the loop over their data slots. -/
theorem loop_eq (loop : ℕ → ℕ → ReadVars → Except Fault ReadFlow) (p : ℕ → UInt32) (x stop : ℕ)
    (hzero : ∀ k v, loop 0 k v = .ok (.next v))
    (hsucc : ∀ n k v, loop (n + 1) k v =
      s.readSlot inode offset (p k) v >>= ReadFlow.andThen (loop n (k + 1)))
    (hfetch : ∀ k, x + k < stop → s.fetch inode (x + k) = s.readBlock (p k).toNat)
    (henter : ∀ y, x < y → y < stop → y ≠ 6 ∧ y ≠ 262) (hn : x + k + n = stop) :
    loop n k v >>= ReadFlow.andThen (fun w => s.readSlots inode offset m stop (w.enter stop)) =
      s.readSlots inode offset (n + m) (x + k) (if n = 0 then v.enter stop else v) := by
  induction n generalizing k v with
  | zero =>
    rw [hzero, Nat.zero_add, if_pos rfl]
    obtain rfl : x + k = stop := hn
    rfl
  | succ n ih =>
    have hslot : s.readSlots inode offset (n + 1 + m) (x + k) v = (do
        let block ← s.fetch inode (x + k)
        match readBytes inode.size offset block 1024 0 v with
        | .cleanup v => .ok (.cleanup v)
        | .next v => s.readSlots inode offset (n + m) (x + k + 1) (v.enter (x + k + 1))) := by
      rw [show n + 1 + m = (n + m) + 1 by omega]
      rfl
    rw [if_neg (Nat.succ_ne_zero n), hslot, hsucc, readSlot, hfetch k (by omega)]
    cases hb : s.readBlock (p k).toNat with
    | error e => rfl
    | ok block =>
      rw [ok_bind, ok_bind, ok_bind]
      cases hf : readBytes inode.size offset block 1024 0 v with
      | cleanup w => rfl
      | next w =>
        have hnext := ih (k := k + 1) (v := w) (by omega)
        have hw : (if n = 0 then w.enter stop else w) = w.enter (x + k + 1) := by
          split
          · next h0 => rw [show x + k + 1 = stop by omega]
          · next h0 =>
            have hy := henter (x + k + 1) (by omega) (by omega)
            rw [ReadVars.enter, if_neg (by omega)]
        rw [hw] at hnext
        exact hnext

theorem readDirect_eq (s : FS g) (inode : Inode) (offset : ℕ) (hx : x < 6) (v : ReadVars) :
    s.readDirect inode offset (6 - x) x v >>=
        ReadFlow.andThen (fun w => s.readSlots inode offset m 6 (w.enter 6)) =
      s.readSlots inode offset (6 - x + m) x v := by
  have hloop := loop_eq (s.readDirect inode offset) inode.directAt 0 6 (m := m) (v := v) (k := x)
    (n := 6 - x) (fun _ _ => rfl) (fun _ _ _ => rfl)
    (fun k hk => by rw [Nat.zero_add, fetch, if_pos (by omega)]) (fun _ _ _ => by omega) (by omega)
  rwa [if_neg (by omega), Nat.zero_add] at hloop

/-- The loop over the entries of a block of pointers, whose data slots start at `x`. -/
theorem readEntries_eq (s : FS g) (inode : Inode) (offset : ℕ) (blocks : Block) (hk : k < 256)
    (hfetch : ∀ k < 256, s.fetch inode (x + k) = s.readBlock (blocks.word k).toNat)
    (henter : ∀ y, x < y → y < x + 256 → y ≠ 6 ∧ y ≠ 262) (v : ReadVars) :
    s.readEntries inode offset blocks (256 - k) k v >>=
        ReadFlow.andThen (fun w => s.readSlots inode offset m (x + 256) (w.enter (x + 256))) =
      s.readSlots inode offset (256 - k + m) (x + k) v := by
  have hloop := loop_eq (s.readEntries inode offset blocks) blocks.word x (x + 256) (m := m) (v := v)
    (k := k) (n := 256 - k) (fun _ _ => rfl) (fun _ _ _ => rfl)
    (fun k hk => hfetch k (by omega)) henter (by omega)
  rwa [if_neg (by omega)] at hloop

/-- A block of pointers that cannot be read stops the loop at its first slot. -/
theorem readSlots_of_error {e : Fault} (hn : 0 < n) (h : s.fetch inode x = .error e) :
    s.readSlots inode offset n x v = .error e := by
  obtain ⟨n, rfl⟩ := Nat.exists_eq_add_of_lt hn
  rw [Nat.zero_add, readSlots, h]
  rfl

theorem fetch_level2 {indirect2 : Block} (h2 : s.readBlock inode.indir2.toNat = .ok indirect2)
    (hk : k < 256) : s.fetch inode (262 + 256 * i + k) = (do
      let indirect1 ← s.readBlock (indirect2.word i).toNat
      s.readBlock (indirect1.word k).toNat) := by
  have hdiv : (262 + 256 * i + k - 262) / 256 = i := by omega
  have hmod : (262 + 256 * i + k - 262) % 256 = k := by omega
  rw [fetch, if_neg (by omega), if_neg (by omega), h2, ok_bind, hdiv, hmod]

theorem readOuter_eq {indirect2 : Block} (h2 : s.readBlock inode.indir2.toNat = .ok indirect2)
    (hni : n + i = 256) (hj : j < 256) (hn : n = 0 → j = 0) (v : ReadVars) :
    s.readOuter inode offset indirect2 n i j v =
      s.readSlots inode offset (256 * n - j) (262 + 256 * i + j)
        { v with cntOffset := v.cntOffset + j * 1024 } := by
  induction n generalizing i j v with
  | zero =>
    obtain rfl := hn rfl
    rfl
  | succ n ih =>
    rw [readOuter]
    cases h1 : s.readBlock (indirect2.word i).toNat with
    | error e =>
      rw [readSlots_of_error (by omega) (e := e)]
      · rfl
      · rw [fetch_level2 h2 hj, h1]
        rfl
    | ok indirect1 =>
      rw [ok_bind]
      have hentries := readEntries_eq s inode offset indirect1 (m := 256 * n) (x := 262 + 256 * i) hj
        (fun k hk => by rw [fetch_level2 h2 hk, h1, ok_bind]) (fun _ _ _ => by omega)
        { v with cntOffset := v.cntOffset + j * 1024 }
      rw [show 256 * (n + 1) - j = 256 - j + 256 * n by omega, ← hentries]
      -- the loop goes on with the next level-1 block
      have hnext : ∀ w : ReadVars, s.readOuter inode offset indirect2 n (i + 1) 0 w =
          s.readSlots inode offset (256 * n) (262 + 256 * i + 256) (w.enter (262 + 256 * i + 256)) := by
        intro w
        have hslot : 262 + 256 * (i + 1) + 0 = 262 + 256 * i + 256 := by omega
        have hcnt : w.cntOffset + 0 * 1024 = w.cntOffset := by omega
        rw [ih (by omega) (by omega) (fun _ => rfl), hslot, hcnt, Nat.sub_zero, ReadVars.enter,
          if_neg (by omega)]
      rw [← funext hnext]
      rfl

theorem readFromLevel2_eq (hx : x < 65798) (v : ReadVars) :
    s.readFromLevel2 inode offset x v =
      s.readSlots inode offset (65798 - max x 262) (max x 262) (v.startAt (max x 262)) := by
  rw [readFromLevel2]
  cases h2 : s.readBlock inode.indir2.toNat with
  | error e =>
    rw [readSlots_of_error (by omega) (e := e)]
    · rfl
    · rw [fetch, if_neg (by omega), if_neg (by omega), h2]
      rfl
  | ok indirect2 =>
    rw [ok_bind]
    dsimp only
    rw [readOuter_eq h2 (by omega) (by omega) (by omega), ReadVars.startAt]
    have hsplit : 262 + 256 * ((x - 262) / 256) + (x - 262) % 256 = max x 262 := by omega
    have hcount : 256 * (256 - (x - 262) / 256) - (x - 262) % 256 = 65798 - max x 262 := by omega
    have hcnt : (262 + (x - 262) / 256 * 256) * 1024 + (x - 262) % 256 * 1024 = max x 262 * 1024 := by
      omega
    rw [hsplit, hcount, hcnt]

theorem readFromLevel1_eq (hx : x < 262) (v : ReadVars) :
    s.readFromLevel1 inode offset x v =
      s.readSlots inode offset (65798 - max x 6) (max x 6) (v.startAt (max x 6)) := by
  rw [readFromLevel1]
  cases h1 : s.readBlock inode.indir1.toNat with
  | error e =>
    rw [readSlots_of_error (by omega) (e := e)]
    · rfl
    · rw [fetch, if_neg (by omega), if_pos (by omega), h1]
      rfl
  | ok indirect1 =>
    rw [ok_bind]
    dsimp only
    have hentries := readEntries_eq s inode offset indirect1 (m := 65536) (x := 6) (k := x - 6) (by omega)
      (fun k hk => by rw [fetch, if_neg (by omega), if_pos (by omega), h1, ok_bind, Nat.add_sub_cancel_left])
      (fun _ _ _ => by omega) { v with cntOffset := (x - 6 + 6) * 1024 }
    have hsplit : 6 + (x - 6) = max x 6 := by omega
    have hcount : 256 - (x - 6) + 65536 = 65798 - max x 6 := by omega
    have hcnt : x - 6 + 6 = max x 6 := by omega
    rw [hsplit, hcount, hcnt] at hentries
    rw [ReadVars.startAt, ← hentries, hcnt]
    have hnext : ∀ w : ReadVars, s.readFromLevel2 inode offset x w =
        s.readSlots inode offset 65536 (6 + 256) (w.enter (6 + 256)) := by
      intro w
      rw [readFromLevel2_eq (by omega), max_eq_right (by omega), ReadVars.enter, if_pos (Or.inr rfl)]
    rw [← funext hnext]
    rfl

/-- **The loops of a read are one loop** over the data slots from `x` on. -/
theorem readBlocks_eq (hx : x < 65798) (v : ReadVars) :
    s.readBlocks inode offset x v = s.readSlots inode offset (65798 - x) x (v.startAt x) := by
  rw [readBlocks]
  split
  · next h6 =>
    have hdirect := readDirect_eq s inode offset (m := 65792) h6 (v.startAt x)
    rw [show 6 - x + 65792 = 65798 - x by omega] at hdirect
    rw [readFromDirect, ← hdirect]
    have hnext : ∀ w : ReadVars, s.readFromLevel1 inode offset x w =
        s.readSlots inode offset 65792 6 (w.enter 6) := by
      intro w
      rw [readFromLevel1_eq (by omega), max_eq_right (by omega), ReadVars.enter, if_pos (Or.inl rfl)]
    rw [← funext hnext]
    rfl
  · split
    · next h262 => rw [readFromLevel1_eq h262, max_eq_left (by omega)]
    · rw [readFromLevel2_eq hx, max_eq_left (by omega)]

end FS

/-! ## What is copied -/

/-- Where the copying ends: the position in the file of the first byte that is not copied. -/
def readEnd (size : Int32) (len offset : ℕ) : ℕ := max offset (min (offset + len) size.toInt.toNat)

/-- All that there is to copy up to byte `p` of the file, whose bytes are `D`, has been
copied. -/
structure Loaded (D buf : ℕ → UInt8) (size : Int32) (len offset p : ℕ) (v : ReadVars) : Prop where
  cntOffset : (v.cntOffset = p ∧ p ≤ offset) ∨ (offset ≤ v.cntOffset ∧ offset ≤ p)
  numCopied : v.numCopied = p - offset
  rest : v.numCopied + v.len = len
  le_end : p ≤ readEnd size len offset
  bytes : ∀ y, v.buf y = if y < v.numCopied then D (offset + y) else buf y

section

variable {D buf : ℕ → UInt8} {size : Int32} {len offset p x n j : ℕ} {v w : ReadVars} {string : Block}

/-- At the start of a data slot `cnt_offset` may be set. -/
theorem Loaded.startAt (h : Loaded D buf size len offset (x * 1024) v) :
    Loaded D buf size len offset (x * 1024) (v.startAt x) where
  cntOffset := by
    rcases h.cntOffset with ⟨-, hp⟩ | ⟨-, hp⟩
    · exact Or.inl ⟨rfl, hp⟩
    · exact Or.inr ⟨hp, hp⟩
  numCopied := h.numCopied
  rest := h.rest
  le_end := h.le_end
  bytes := h.bytes

theorem Loaded.enter (h : Loaded D buf size len offset (x * 1024) v) :
    Loaded D buf size len offset (x * 1024) (v.enter x) := by
  unfold ReadVars.enter
  split
  · exact h.startAt
  · exact h

/-- One byte is skipped. -/
theorem Loaded.skip (h : Loaded D buf size len offset p v) (hlt : v.cntOffset < offset) :
    Loaded D buf size len offset (p + 1) { v with cntOffset := v.cntOffset + 1 } := by
  obtain ⟨hcnt, hp⟩ | ⟨hcnt, -⟩ := h.cntOffset
  · have hcopied := h.numCopied
    refine ⟨Or.inl ⟨congrArg (· + 1) hcnt, by omega⟩, ?_, h.rest, ?_, h.bytes⟩
    · show v.numCopied = p + 1 - offset
      omega
    · unfold readEnd
      omega
  · omega

/-- One byte is copied. -/
theorem Loaded.copy (h : Loaded D buf size len offset p v) (hge : ¬ v.cntOffset < offset)
    (hlen : 0 < v.len) (hsize : ((offset + v.numCopied : ℕ) : ℤ) < size.toInt)
    (hbyte : string.byte j = D p) : Loaded D buf size len offset (p + 1)
      { v with
        buf := update v.buf v.numCopied (string.byte j)
        numCopied := v.numCopied + 1
        len := v.len - 1 } := by
  have hcopied := h.numCopied
  have hl := h.rest
  have hp : offset ≤ p := by
    obtain ⟨hcnt, -⟩ | ⟨-, hp⟩ := h.cntOffset
    · omega
    · exact hp
  refine ⟨Or.inr ⟨not_lt.1 hge, by omega⟩, ?_, ?_, ?_, fun y => ?_⟩
  · show v.numCopied + 1 = p + 1 - offset
    omega
  · show v.numCopied + 1 + (v.len - 1) = len
    omega
  · unfold readEnd
    omega
  · show update v.buf v.numCopied (string.byte j) y = if y < v.numCopied + 1 then D (offset + y) else buf y
    rcases eq_or_ne y v.numCopied with rfl | hy
    · rw [update_self, if_pos (Nat.lt_succ_self _), hbyte]
      congr 1
      omega
    · rw [update_of_ne hy, h.bytes]
      exact if_congr (by omega) rfl rfl

/-- There is no byte to copy any more. -/
theorem Loaded.eq_end (h : Loaded D buf size len offset p v) (hge : ¬ v.cntOffset < offset)
    (hstop : ¬ (0 < v.len ∧ ((offset + v.numCopied : ℕ) : ℤ) < size.toInt)) :
    p = readEnd size len offset := by
  have hcopied := h.numCopied
  have hl := h.rest
  have hle := h.le_end
  have hp : offset ≤ p := by
    obtain ⟨hcnt, -⟩ | ⟨-, hp⟩ := h.cntOffset
    · omega
    · exact hp
  unfold readEnd at hle ⊢
  omega

/-- **The loop over a block** copies what there is to copy of it, and ends the read if that is
not all of it. -/
theorem Loaded.readBytes (h : Loaded D buf size len offset p v)
    (hD : ∀ m < n, string.byte (j + m) = D (p + m)) :
    (∃ w, readBytes size offset string n j v = .cleanup w ∧ readEnd size len offset < p + n ∧
      Loaded D buf size len offset (readEnd size len offset) w) ∨
    ∃ w, readBytes size offset string n j v = .next w ∧ Loaded D buf size len offset (p + n) w := by
  induction n generalizing j p v with
  | zero => exact Or.inr ⟨v, rfl, h⟩
  | succ n ih =>
    have hD' : ∀ m < n, string.byte (j + 1 + m) = D (p + 1 + m) := fun m hm => by
      have hm' := hD (m + 1) (by omega)
      rwa [Nat.add_comm m 1, ← Nat.add_assoc, ← Nat.add_assoc] at hm'
    rw [Fsx600.readBytes, ← Nat.add_assoc, Nat.add_right_comm p n 1]
    split
    · next hlt => exact ih (h.skip hlt) hD'
    · next hge =>
      split
      · next hcopy => exact ih (h.copy hge hcopy.1 hcopy.2 (hD 0 (by omega))) hD'
      · next hstop =>
        have hend := h.eq_end hge hstop
        exact Or.inl ⟨v, rfl, by omega, hend ▸ h⟩

end

namespace FS

variable {g : Layout} {s : FS g} {inode : Inode} {len offset n x : ℕ} {v : ReadVars} {f : ReadFlow}
  {buf : ℕ → UInt8}

/-- The bytes that `fs_read` takes for the file. -/
def fetched (s : FS g) (inode : Inode) (p : ℕ) : UInt8 :=
  match s.fetch inode (p / 1024) with
  | .ok block => block.byte (p % 1024)
  | .error _ => 0

theorem byte_of_fetch {block : Block} (h : s.fetch inode x = .ok block) {m : ℕ} (hm : m < 1024) :
    block.byte m = s.fetched inode (x * 1024 + m) := by
  have hdiv : (x * 1024 + m) / 1024 = x := by omega
  have hmod : (x * 1024 + m) % 1024 = m := by omega
  unfold fetched
  rw [hdiv, hmod, h]

section

variable (hv : Loaded (s.fetched inode) buf inode.size len offset (x * 1024) v)
include hv

/-- One data slot. -/
theorem readSlots_slot {block : Block} (h : s.fetch inode x = .ok block) :
    (∃ w, s.readSlots inode offset (n + 1) x v = .ok (.cleanup w) ∧
      readEnd inode.size len offset < (x + 1) * 1024 ∧
      Loaded (s.fetched inode) buf inode.size len offset (readEnd inode.size len offset) w) ∨
    ∃ w, s.readSlots inode offset (n + 1) x v = s.readSlots inode offset n (x + 1) w ∧
      Loaded (s.fetched inode) buf inode.size len offset ((x + 1) * 1024) w := by
  have hD : ∀ m < 1024, block.byte (0 + m) = s.fetched inode (x * 1024 + m) := fun m hm => by
    rw [Nat.zero_add, byte_of_fetch h hm]
  rw [readSlots, h, ok_bind, Nat.succ_mul]
  obtain ⟨w, hw, hend, hloaded⟩ | ⟨w, hw, hloaded⟩ := hv.readBytes hD
  · exact Or.inl ⟨w, by rw [hw], hend, hloaded⟩
  · rw [← Nat.succ_mul] at hloaded
    exact Or.inr ⟨w.enter (x + 1), by rw [hw], by rw [← Nat.succ_mul]; exact hloaded.enter⟩

/-- What the loop has copied. -/
theorem loaded_readSlots (h : s.readSlots inode offset n x v = .ok f) :
    Loaded (s.fetched inode) buf inode.size len offset
      (min (readEnd inode.size len offset) ((x + n) * 1024)) f.vars := by
  induction n generalizing x v with
  | zero =>
    obtain rfl := Except.ok.inj h
    rw [Nat.add_zero, min_eq_right hv.le_end]
    exact hv
  | succ n ih =>
    have h' := h
    rw [readSlots, bind_eq_ok] at h'
    obtain ⟨block, hblock, -⟩ := h'
    obtain ⟨w, hw, hend, hloaded⟩ | ⟨w, hw, hloaded⟩ := readSlots_slot (n := n) hv hblock
    · obtain rfl := Except.ok.inj (hw.symm.trans h)
      rw [min_eq_left (by omega)]
      exact hloaded
    · have hnext := ih hloaded (hw.symm.trans h)
      rwa [Nat.add_right_comm, Nat.add_assoc] at hnext

/-- The loop returns if and only if it can fetch the blocks of all the data slots that it
comes to. -/
theorem readSlots_returns_iff : Returns (s.readSlots inode offset n x v) ↔
    ∀ y, x ≤ y → y < x + n → y * 1024 ≤ readEnd inode.size len offset → Returns (s.fetch inode y) := by
  induction n generalizing x v with
  | zero =>
    refine ⟨fun _ y hy hlt => ?_, fun _ => returns_ok _⟩
    omega
  | succ n ih =>
    cases hb : s.fetch inode x with
    | error e =>
      constructor
      · rintro ⟨f, hf⟩
        rw [readSlots, hb] at hf
        exact absurd hf (by simp [bind, Except.bind])
      · intro hall
        obtain ⟨block, hblock⟩ := hall x le_rfl (by omega) hv.le_end
        exact absurd (hb.symm.trans hblock) (by simp)
    | ok block =>
      obtain ⟨w, hw, hend, -⟩ | ⟨w, hw, hloaded⟩ := readSlots_slot (n := n) hv hb
      · rw [hw]
        refine ⟨fun _ y hy _ hle => ?_, fun _ => returns_ok _⟩
        obtain rfl : y = x := by omega
        exact ⟨block, hb⟩
      · rw [hw, ih hloaded]
        constructor
        · intro hall y hy hlt hle
          rcases eq_or_ne y x with rfl | hne
          · exact ⟨block, hb⟩
          · exact hall y (by omega) (by omega) hle
        · exact fun hall y hy hlt hle => hall y (by omega) (by omega) hle

end

/-- Before the first byte. -/
theorem loaded_start (h : x * 1024 ≤ offset) :
    Loaded (s.fetched inode) buf inode.size len offset (x * 1024)
      (ReadVars.startAt ⟨buf, len, 0, 0⟩ x) := by
  refine ⟨Or.inl ⟨rfl, h⟩, (Nat.sub_eq_zero_of_le h).symm, Nat.zero_add _, ?_, fun _ => rfl⟩
  unfold readEnd
  omega

/-! ## Fetching a block -/

variable {i : ℕ}

theorem readBlock_of_lt {p : ℕ} (h : p < g.nblks) : s.readBlock p = .ok (s.disk p) := if_pos h

/-- Where the blocks of pointers are there and all numbers on the way are those of blocks of
the image, the block of a data slot is the one that its pointer names. -/
theorem fetch_of_way (hne : ∀ σ ∈ tables x, s.pointer i σ ≠ 0)
    (hlt : ∀ σ ∈ way x, (s.pointer i σ).toNat < g.nblks) :
    s.fetch (s.inodes i) x = .ok (s.disk (s.pointer i (dataSlot x)).toNat) := by
  have hdata : (s.pointer i (dataSlot x)).toNat < g.nblks := hlt _ (by simp [way])
  have htable : ∀ σ ∈ tables x, s.readBlock (s.pointer i σ).toNat =
      .ok (s.disk (s.pointer i σ).toNat) := fun σ hσ => readBlock_of_lt (hlt σ (by simp [way, hσ]))
  unfold fetch
  split_ifs with h6 h262
  · rw [dataSlot_direct h6] at hdata ⊢
    exact readBlock_of_lt hdata
  · have h1 := htable .indir1 (indir1_mem_tables (by omega) h262)
    have hword : s.pointer i (dataSlot x) = (s.disk (s.pointer i .indir1).toNat).word (x - 6) := by
      unfold dataSlot
      rw [if_neg h6, if_pos h262]
      exact tableWord_of_ne_zero (hne _ (indir1_mem_tables (by omega) h262)) _
    rw [hword] at hdata ⊢
    change (s.readBlock (s.pointer i .indir1).toNat >>= _) = _
    rw [h1, ok_bind]
    exact readBlock_of_lt hdata
  · have h2 := htable .indir2 (indir2_mem_tables (by omega))
    have ho := htable (.outer ((x - 262) / 256)) (outer_mem_tables (by omega))
    have houter : s.pointer i (.outer ((x - 262) / 256)) =
        (s.disk (s.pointer i .indir2).toNat).word ((x - 262) / 256) :=
      tableWord_of_ne_zero (hne _ (indir2_mem_tables (by omega))) _
    have hword : s.pointer i (dataSlot x) =
        (s.disk (s.pointer i (.outer ((x - 262) / 256))).toNat).word ((x - 262) % 256) := by
      unfold dataSlot
      rw [if_neg h6, if_neg h262]
      exact tableWord_of_ne_zero (hne _ (outer_mem_tables (by omega))) _
    rw [hword] at hdata ⊢
    change (s.readBlock (s.pointer i .indir2).toNat >>= _) = _
    rw [h2, ok_bind, ← houter, ho, ok_bind]
    exact readBlock_of_lt hdata

/-! ## The whole of a read -/

/-- `fs_getattr` finds inode `i` at the path. -/
def Finds (s : FS g) (path : Path) (i : ℕ) : Prop :=
  s.fsGetattr path = .ok (.inr (fsSetSuperbockAttrs (s.inodes i) i))

variable {path : Path}

/-- Then `i` is an index of the inode table. -/
theorem Finds.inode_eq (h : s.Finds path i) : s.inode i = .ok (s.inodes i) := by
  have h' := h
  unfold Finds fsGetattr at h'
  rw [bind_eq_ok] at h'
  obtain ⟨inum, -, h'⟩ := h'
  split at h'
  · simp at h'
  · rw [bind_eq_ok] at h'
    obtain ⟨ino, hino, h'⟩ := h'
    obtain ⟨h0, hlt, rfl⟩ := inode_ok hino
    have hi : inum.toNat = i := congrArg Stat.ino (Sum.inr.inj (Except.ok.inj h'))
    rw [← hi, FS.inode, if_pos ⟨by omega, by omega⟩, Int.toNat_natCast]

/-- And the path leads to it. -/
theorem Finds.resolve_eq (h : s.Finds path i) : s.resolve 1 path.tokens = .inr i := by
  rcases fsGetattr_ok h with ⟨e, -, he⟩ | ⟨j, hj, heq⟩
  · simp at he
  · have hi : i = j := congrArg Stat.ino (Sum.inr.inj heq)
    rw [hj, hi]

theorem WellFormed.finds (h : WellFormed s) (hp : path.tokens.length ≤ 63)
    (hr : s.resolve 1 path.tokens = .inr i) : s.Finds path i := by
  obtain ⟨o, ho⟩ := h.indexed.fsGetattr_returns hp
  rcases fsGetattr_ok ho with ⟨e, he, -⟩ | ⟨j, hj, rfl⟩
  · exact absurd (hr.symm.trans he) (by simp)
  · obtain rfl := Sum.inr.inj (hr.symm.trans hj)
    exact ho

/-- `n_blocks` is not past the offset. -/
theorem le_of_readIndex (h : readIndex offset = x) : x * 1024 ≤ offset := by
  unfold readIndex at h
  have hle : x ≤ offset / 1024 := by
    rw [Int32.toInt_ofNat', Int.bmod_def] at h
    unfold Int32.size at h
    split at h <;> omega
  omega

theorem readIndex_of_lt (h : offset < 2 ^ 31) : readIndex offset = (offset / 1024 : ℕ) := by
  unfold readIndex
  exact Int32.toInt_ofNat_of_lt (by omega)

/-- A read that starts past all data slots. -/
theorem Finds.fsRead_past (h : s.Finds path i) (hx : readIndex offset < 0 ∨ 65798 ≤ readIndex offset) :
    s.fsRead path buf len offset = .ok (0, buf) := by
  unfold Finds at h
  rw [fsRead, h, ok_bind]
  exact if_pos hx

/-- It is past the largest file. -/
theorem le_offset_of_readIndex (hx : readIndex offset < 0 ∨ 65798 ≤ readIndex offset) :
    65798 * 1024 ≤ offset := by
  unfold readIndex at hx
  rw [Int32.toInt_ofNat', Int.bmod_def] at hx
  unfold Int32.size at hx
  split at hx <;> omega

/-- **A read of a file**, when its first data slot is one that a file can have. -/
theorem Finds.fsRead_eq (h : s.Finds path i) (hf : s.isDir i = false) (hx : readIndex offset = x)
    (hlt : x < 65798) : s.fsRead path buf len offset = (do
      let f ← s.readSlots (s.inodes i) offset (65798 - x) x (ReadVars.startAt ⟨buf, len, 0, 0⟩ x)
      .ok (f.vars.numCopied, update f.vars.buf f.vars.numCopied 0)) := by
  have hino := h.inode_eq
  unfold Finds at h
  rw [fsRead, h, ok_bind]
  dsimp only [fsSetSuperbockAttrs]
  rw [if_neg (by omega), hino, ok_bind, if_neg (by simpa [FS.isDir] using hf), hx, Int.toNat_natCast,
    readBlocks_eq hlt]

/-- What any read that returns has stored: nothing, if it failed or started past all data slots;
otherwise bytes up to the one behind those it returns, and that one is a NUL. -/
theorem fsRead_ok {r : ℤ} {buf' : ℕ → UInt8} (h : s.fsRead path buf len offset = .ok (r, buf')) :
    ((r < 0 ∨ ¬ (0 ≤ readIndex offset ∧ readIndex offset < 65798)) ∧ buf' = buf) ∨
    (0 ≤ readIndex offset ∧ readIndex offset < 65798) ∧ 0 ≤ r ∧ buf' r.toNat = 0 ∧
      ∀ y : ℕ, r < y → buf' y = buf y := by
  rw [fsRead, bind_eq_ok] at h
  obtain ⟨o, ho, h⟩ := h
  cases o with
  | inl e =>
    obtain ⟨rfl, rfl⟩ := Prod.mk.inj (Except.ok.inj h)
    rcases fsGetattr_ok ho with ⟨e', he, heq⟩ | ⟨j, -, heq⟩
    · obtain rfl := Sum.inl.inj heq
      exact Or.inl ⟨Or.inl (error_neg (resolve_error he)), rfl⟩
    · exact absurd heq (by simp)
  | inr sb =>
    dsimp only at h
    split at h
    · next hpast =>
      obtain ⟨-, rfl⟩ := Prod.mk.inj (Except.ok.inj h)
      exact Or.inl ⟨Or.inr (by omega), rfl⟩
    · next hin =>
      rw [bind_eq_ok] at h
      obtain ⟨ino, -, h⟩ := h
      split at h
      · obtain ⟨rfl, rfl⟩ := Prod.mk.inj (Except.ok.inj h)
        exact Or.inl ⟨Or.inl (by decide), rfl⟩
      · rw [bind_eq_ok] at h
        obtain ⟨f, hf, h⟩ := h
        obtain ⟨rfl, rfl⟩ := Prod.mk.inj (Except.ok.inj h)
        obtain ⟨x, hx⟩ := Int.eq_ofNat_of_zero_le (show 0 ≤ readIndex offset by omega)
        rw [hx, Int.toNat_natCast, readBlocks_eq (by omega)] at hf
        have hloaded := loaded_readSlots (loaded_start (le_of_readIndex hx)) hf
        refine Or.inr ⟨by omega, Int.natCast_nonneg _, update_self _ _ _, fun y hy => ?_⟩
        rw [update_of_ne (by omega), hloaded.bytes, if_neg (by omega)]

end FS

end Fsx600
