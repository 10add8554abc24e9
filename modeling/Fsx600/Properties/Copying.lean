import Fsx600.Model.Shell
import Fsx600.Properties.Showing

/-!
# Copying files in and out

`put` reads a file outside in pieces of `blksiz` bytes and writes them one after another; `get` and
`show` read in pieces until nothing comes.  Both are loops over calls of `fs_write` and `fs_read`,
and the last call of `get` is always one at the end of the file.

That call fetches the block of the next byte before it finds that there is none.  So there are
lengths where `get` is not to be relied on, those that fill the blocks of pointers that there are
(`OnEdge`).

And a read that returns all it was asked for stores its NUL behind the end of `blkbuf`.  Reads that
stay inside return less than `blksiz` bytes, and so all that is left of the file: `get` and `show`
give back what the store has if `blksiz` is more than the length, and run over otherwise
(`Backs.getLoop`).  No read that the model lets pass stores anything else there
(`readBlkbuf_inside`).
-/

namespace Fsx600

open Checked Function Mkfs

/-- The data of the file ends where a block of pointers would begin to be needed. -/
def OnEdge (n : ℕ) : Prop := n = 6144 ∨ 268288 ≤ n ∧ (n - 268288) % 262144 = 0

instance (n : ℕ) : Decidable (OnEdge n) := inferInstanceAs (Decidable (_ ∨ _))

@[simp] theorem fsOp_eq_ok {α : Type} {x : Except Fault α} {y : α} : fsOp x = .ok y ↔ x = .ok y := by
  cases x <;> simp [fsOp]

/-- No more bytes are allocated than are asked for. -/
theorem mallocSize_le_sizeT (b : Int32) : mallocSize b ≤ sizeT b := by
  have hint := Int32.toInt_toInt64 b
  have hnat : b.toInt64.toInt = b.toInt64.toBitVec.toInt := rfl
  rw [BitVec.toInt_eq_toNat_cond] at hnat
  change b.toInt.toNat ≤ b.toInt64.toBitVec.toNat
  split at hnat <;> omega

namespace FS

variable {g : Layout} {s t : FS g} {path : Path} {i n offset len x y : ℕ} {N : NameTree} {M : Store}
  {o : Object} {buf : ℕ → UInt8}

/-! ## Reading at the end of a file -/

/-- Away from the edges a data slot has the blocks of pointers of the one before it. -/
theorem tables_succ (hx : ¬ OnEdge (1024 * (x + 1))) : tables (x + 1) = [] ∨ tables (x + 1) = tables x := by
  unfold OnEdge at hx
  unfold tables
  by_cases h6 : x + 1 < 6
  · exact Or.inl (if_pos h6)
  · right
    by_cases h262 : x + 1 < 262
    · rw [if_neg h6, if_pos h262, if_neg (by omega), if_pos (by omega)]
    · rw [if_neg h6, if_neg h262, if_neg (by omega), if_neg (by omega),
        show (x + 1 - 262) / 256 = (x - 262) / 256 by omega]

section Reading

variable (hwf : Wf s) (hi : s.inodeMap i = true) (hf : s.isDir i = false) (he : s.Exact i)
  (hn : (s.inodes i).size.toInt = n)
include hwf hi hf he hn

/-- The blocks up to the one after the last byte can be fetched, away from the edges. -/
theorem Exact.fetch_returns (hedge : ¬ OnEdge n) (hx : 1024 * x ≤ n) :
    Returns (s.fetch (s.inodes i) x) := by
  have hmapped : ∀ y, 1024 * y < n → ∀ σ ∈ tables y, s.pointer i σ ≠ 0 := fun y hy =>
    pointer_tables_ne_zero ((he.mapped y).2 (by omega))
  refine ⟨_, fetch_of_way ?_ fun σ _ => hwf.pointer_lt hi hf σ⟩
  rcases lt_or_eq_of_le hx with hlt | rfl
  · exact hmapped x hlt
  · cases x with
    | zero => simp [tables]
    | succ x =>
      rcases tables_succ hedge with hnone | hsame
      · simp [hnone]
      · rw [hsame]
        exact hmapped x (by omega)

omit hwf hi hf in
/-- Away from the edges a file ends before the last data slot does. -/
theorem Exact.lt_of_le (hedge : ¬ OnEdge n) (ho : offset ≤ n) : offset < 65798 * 1024 := by
  by_contra hge
  have hlast := lt_of_pointer_dataSlot ((he.mapped ((n - 1) / 1024)).2 (by omega))
  unfold OnEdge at hedge
  omega

/-- **A read of a file**, from wherever it has bytes to its end at most. -/
theorem Exact.fsRead_eq (hfinds : s.Finds path i) (hedge : ¬ OnEdge n) (ho : offset ≤ n) (len : ℕ)
    (buf : ℕ → UInt8) :
    ∃ buf', s.fsRead path buf len offset = .ok ((min len (n - offset) : ℕ), buf') ∧
      ∀ x < min len (n - offset), s.byteAt i (offset + x) = some (buf' x) := by
  have hlt := he.lt_of_le hn hedge ho
  have hend : readEnd (s.inodes i).size len offset = min (offset + len) n := by
    unfold readEnd
    rw [hn, Int.toNat_natCast]
    omega
  have hx : readIndex offset = (offset / 1024 : ℕ) := readIndex_of_lt (by omega)
  have hstart : Loaded (s.fetched (s.inodes i)) buf (s.inodes i).size len offset (offset / 1024 * 1024)
      (ReadVars.startAt ⟨buf, len, 0, 0⟩ (offset / 1024)) := loaded_start (by omega)
  obtain ⟨f, hret⟩ := (readSlots_returns_iff (n := 65798 - offset / 1024) hstart).2 fun y _ _ hy =>
    he.fetch_returns hwf hi hf hn hedge (x := y) (by omega)
  have hloaded := loaded_readSlots hstart hret
  rw [hend, min_eq_left (by
    have hlast : n ≤ 65798 * 1024 := by
      by_contra hge
      have := lt_of_pointer_dataSlot ((he.mapped 65798).2 (by omega))
      omega
    omega)] at hloaded
  have hcopied : f.vars.numCopied = min len (n - offset) := by
    rw [hloaded.numCopied]
    omega
  refine ⟨update f.vars.buf (min len (n - offset)) 0, ?_, fun x hx => ?_⟩
  · rw [hfinds.fsRead_eq hf hx (by omega), hret, ok_bind, hcopied]
  · have hmapped : s.Mapped i ((offset + x) / 1024) := he.mapped_of_lt hwf hi hf (by omega)
    rw [hmapped.byteAt, update_of_ne (by omega), hloaded.bytes, hcopied, if_pos hx]

/-- A pass of the loop of `get`: either the rest of the file is less than `blkbuf` has, and it is
read, or a byte behind the end of `blkbuf` is stored. -/
theorem Exact.readBlkbuf (hfinds : s.Finds path i) (hedge : ¬ OnEdge n) (ho : offset ≤ n) (b : Int32)
    (buf : ℕ → UInt8) :
    (n - offset < mallocSize b → ∃ buf', Session.readBlkbuf s path b offset buf = .ok ((n - offset : ℕ), buf') ∧
      ∀ x < n - offset, s.byteAt i (offset + x) = some (buf' x)) ∧
    (mallocSize b ≤ n - offset → Session.readBlkbuf s path b offset buf =
      .error (.blkbuf (mallocSize b) (min (sizeT b) (n - offset)))) := by
  have hlt := he.lt_of_le hn hedge ho
  have hindex : 0 ≤ readIndex offset ∧ readIndex offset < 65798 := by
    rw [readIndex_of_lt (by omega)]
    omega
  have hsize := mallocSize_le_sizeT b
  obtain ⟨buf', hread, hbytes⟩ := he.fsRead_eq hwf hi hf hn hfinds hedge ho (sizeT b) buf
  unfold Session.readBlkbuf
  rw [hread]
  dsimp only [fsOp]
  rw [ok_bind]
  dsimp only
  constructor
  · intro hroom
    have hmin : min (sizeT b) (n - offset) = n - offset := by omega
    rw [hmin] at hbytes ⊢
    exact ⟨buf', if_neg (by omega), hbytes⟩
  · intro hover
    exact if_pos ⟨by omega, hindex, by omega⟩

/-- **Reading until nothing comes**: one pass that gives the rest of the file, and one at its end. -/
theorem Exact.getLoop (hfinds : s.Finds path i) (hedge : ¬ OnEdge n) {D : List UInt8} (hD : D.length = n)
    (hbytes : ∀ x < n, s.byteAt i x = D[x]?) {b : Int32} {k : ℕ} (buf : ℕ → UInt8) :
    (n < mallocSize b → ∃ buf', Session.getLoop s path b (k + 2) 0 buf = .ok (0, buf', D)) ∧
    (mallocSize b ≤ n → Session.getLoop s path b (k + 2) 0 buf =
      .error (.blkbuf (mallocSize b) (min (sizeT b) n))) := by
  have hfirst := he.readBlkbuf hwf hi hf hn hfinds hedge (Nat.zero_le n) b buf
  simp only [Nat.sub_zero, Nat.zero_add] at hfirst
  rw [Session.getLoop]
  constructor
  · intro hroom
    obtain ⟨buf', hread, hb⟩ := hfirst.1 hroom
    have hall : (List.range n).map buf' = D := by
      refine List.ext_getElem? fun x => ?_
      by_cases hx : x < n
      · rw [← hbytes x hx, hb x hx]
        simp [hx]
      · rw [List.getElem?_eq_none (by simp; omega), List.getElem?_eq_none (by omega)]
    rw [hread, ok_bind]
    dsimp only
    by_cases hzero : n = 0
    · rw [if_pos (by omega), ← hall, hzero]
      exact ⟨buf', rfl⟩
    · -- the second pass starts at the end of the file
      obtain ⟨buf'', hend, -⟩ := (he.readBlkbuf hwf hi hf hn hfinds hedge le_rfl b buf').1 (by omega)
      rw [if_neg (by omega), Int.toNat_natCast, Nat.zero_add, Session.getLoop, hend, ok_bind]
      dsimp only
      rw [if_pos (by omega), ok_bind, hall, Nat.sub_self, List.append_nil]
      exact ⟨buf'', rfl⟩
  · intro hover
    rw [hfirst.2 hover]
    rfl

end Reading

/-- What a read that returns has stored lies inside `blkbuf`, in any state. -/
theorem readBlkbuf_inside {b : Int32} {r : ℤ} {buf' : ℕ → UInt8}
    (h : Session.readBlkbuf s path b offset buf = .ok (r, buf')) (hx : mallocSize b ≤ x) : buf' x = buf x := by
  unfold Session.readBlkbuf at h
  rw [bind_eq_ok] at h
  obtain ⟨⟨len, f⟩, hread, h⟩ := h
  dsimp only at h
  split at h
  · simp at h
  · next hin =>
    obtain ⟨rfl, rfl⟩ := Prod.mk.inj (Except.ok.inj h)
    rcases fsRead_ok (fsOp_eq_ok.1 hread) with ⟨-, rfl⟩ | ⟨hindex, hpos, -, hrest⟩
    · rfl
    · exact hrest x (by omega)

/-- Only reads are made. -/
theorem getLoop_congr (h : ∀ path buf len offset, t.fsRead path buf len offset = s.fsRead path buf len offset)
    (b : Int32) (k offset : ℕ) (buf : ℕ → UInt8) :
    Session.getLoop t path b k offset buf = Session.getLoop s path b k offset buf := by
  induction k generalizing offset buf with
  | zero => rfl
  | succ k ih =>
    rw [Session.getLoop, Session.getLoop, Session.readBlkbuf, Session.readBlkbuf, h]
    simp only [ih]

/-- **What `get` and `show` pass on** is what the store has, in any state that is like one that
backs it, if `blkbuf` has more bytes than that; otherwise they run over it. -/
theorem Backs.getLoop (h : Backs s N M) (ht : Alike s t) (hpath : path.tokens.length ≤ 63)
    (ho : M path.tokens = some o) (hfile : o.isDir = false) (hedge : ¬ OnEdge o.bytes.length) (b : Int32)
    (buf : ℕ → UInt8) :
    (o.bytes.length < mallocSize b → ∃ buf', Session.getLoop t path b (2 ^ 31) 0 buf = .ok (0, buf', o.bytes)) ∧
    (mallocSize b ≤ o.bytes.length → Session.getLoop t path b (2 ^ 31) 0 buf =
      .error (.blkbuf (mallocSize b) (min (sizeT b) o.bytes.length))) := by
  obtain ⟨i, hr, rfl⟩ := h.exists_resolve ho
  have halloc := h.alloc_of_resolve hr
  have hexact := h.exact i halloc hfile
  have hsize : (s.inodes i).size.toInt = ((s.object i).bytes.length : ℕ) := by
    rw [length_bytes hfile, Int.toNat_of_nonneg hexact.nonneg]
  rw [getLoop_congr ht.fsRead]
  refine hexact.getLoop h.toWf halloc hfile hsize (h.finds hpath hr) hedge rfl (fun x hx => ?_) (k := 2 ^ 31 - 2) buf
  exact (hexact.getElem?_bytes hfile (by omega)).symm

/-! ## Writing piece by piece -/

/-- The pieces that are read from a file outside make up the file. -/
theorem flatten_reads (hn : 0 < n) {k : ℕ} {bytes : List UInt8} (hk : bytes.length ≤ k) :
    (Session.reads n k bytes).flatten = bytes := by
  induction k generalizing bytes with
  | zero =>
    obtain rfl := List.length_eq_zero_iff.1 (Nat.le_zero.1 hk)
    rfl
  | succ k ih =>
    rw [Session.reads]
    split
    · next hempty =>
      have hnil : bytes = [] := by
        have := List.isEmpty_iff.1 hempty
        rw [List.take_eq_nil_iff] at this
        exact this.resolve_left (by omega)
      rw [hnil]
      rfl
    · next hsome =>
      have hne : bytes ≠ [] := by
        rintro rfl
        simp at hsome
      have hpos := List.length_pos_iff.2 hne
      have hdrop : (bytes.drop n).length ≤ k := by
        rw [List.length_drop]
        omega
      rw [List.flatten_cons, ih hdrop, List.take_append_drop]

/-- They are its beginning, whatever the size of the pieces. -/
theorem flatten_reads_prefix (n k : ℕ) (bytes : List UInt8) : (Session.reads n k bytes).flatten <+: bytes := by
  induction k generalizing bytes with
  | zero => exact List.nil_prefix
  | succ k ih =>
    rw [Session.reads]
    split
    · exact List.nil_prefix
    · have hrest := (List.prefix_append_right_inj (bytes.take n)).2 (ih (bytes.drop n))
      rwa [List.take_append_drop] at hrest

theorem ne_nil_of_mem_reads {k : ℕ} {bytes c : List UInt8} (hc : c ∈ Session.reads n k bytes) : c ≠ [] := by
  induction k generalizing bytes with
  | zero => simp [Session.reads] at hc
  | succ k ih =>
    rw [Session.reads] at hc
    split at hc
    · simp at hc
    · next hsome =>
      rcases List.mem_cons.1 hc with rfl | hc
      · simpa using hsome
      · exact ih hc

/-- The calls of `fs_write` that `put` makes, if none falls short. -/
def putCalls (w : ℕ → Context) (path : Path) : ℕ → (ℕ → UInt8) → List (List UInt8) → List (Context × Call)
  | _, _, [] => []
  | offset, buf, chunk :: rest => (w offset, .write path (Session.loadBuf buf chunk) chunk.length offset) ::
    putCalls w path (offset + chunk.length) (Session.loadBuf buf chunk) rest

variable {D : ℕ → UInt8} {w : ℕ → Context} {chunk : List UInt8} {chunks : List (List UInt8)}

theorem loadBuf_of_lt (buf : ℕ → UInt8) (hx : x < chunk.length) : some (Session.loadBuf buf chunk x) = chunk[x]? := by
  rw [Session.loadBuf, List.getElem?_eq_getElem hx]
  rfl

/-- A pass of the loop of `put` whose write returns. -/
theorem putLoop_cons {val r : ℤ} (h : s.fsWrite (w n) path (Session.loadBuf buf chunk) chunk.length n = .ok (r, t)) :
    Session.putLoop w path n val buf s (chunk :: chunks) =
      if r ≠ chunk.length then .ok (r, Session.loadBuf buf chunk, t)
      else Session.putLoop w path (n + chunk.length) r (Session.loadBuf buf chunk) t chunks := by
  rw [Session.putLoop, h]
  rfl

/-- The next write of a new file is within the limits. -/
theorem Written.appendFits (h : Written path i D n s t) (hlen : 0 < len) (hle : n + len ≤ 262 * 1024)
    (hfree : fileBlocks (n + len) ≤ s.freeCount) : t.AppendFits len n i := by
  obtain ⟨hcount, hzero⟩ := h.contents.needs (d := ⟨D, len⟩) hlen hle
  dsimp only at hcount hzero
  have hsize : (t.inodes i).size.toInt = n := by
    rw [h.contents.size, Int32.toInt_ofNat_of_lt (by omega)]
  have htake := h.toTake (Nat.le_add_right n len)
  have htotal := h.freeCount
  refine Or.inr ⟨hsize, hlen, by omega, ?_, (tableSafe_iff (by omega)).2 hzero⟩
  rw [hcount]
  omega

/-- **The loop of `put`** on a new file, if there is room: every write is within the limits and
returns what it was given. -/
theorem Written.putLoop (h : Written path i D n s t) (hp : path.Proper) (hne : ∀ c ∈ chunks, c ≠ [])
    (hle : n + chunks.flatten.length ≤ 262 * 1024) (hfree : fileBlocks (n + chunks.flatten.length) ≤ s.freeCount)
    (hD : ∀ y < chunks.flatten.length, chunks.flatten[y]? = some (D (n + y))) (w : ℕ → Context)
    (buf : ℕ → UInt8) {val : ℤ} (hval : 0 ≤ val) :
    ∃ val' buf' codes u, Session.putLoop w path n val buf t chunks = .ok (val', buf', u) ∧ 0 ≤ val' ∧
      t.runCalls (putCalls w path n buf chunks) = .ok (codes, u) ∧
      t.AllAdmitted (putCalls w path n buf chunks) := by
  induction chunks generalizing n t buf val with
  | nil => exact ⟨val, buf, [], t, rfl, hval, rfl, trivial⟩
  | cons chunk rest ih =>
    have hpos : 0 < chunk.length := List.length_pos_iff.2 (hne chunk List.mem_cons_self)
    rw [List.flatten_cons, List.length_append] at hle hfree hD
    have hbuf : ∀ y < chunk.length, Session.loadBuf buf chunk y = D (n + y) := fun y hy => by
      have hy' := hD y (by omega)
      rw [List.getElem?_append_left hy, ← loadBuf_of_lt buf hy] at hy'
      exact Option.some.inj hy'
    have hroom : fileBlocks (n + chunk.length) ≤ s.freeCount := (fileBlocks_mono (by omega)).trans hfree
    have hend : n + chunk.length ≤ 262 * 1024 := by omega
    obtain ⟨u, hu, hwritten⟩ := h.write (d := ⟨Session.loadBuf buf chunk, chunk.length⟩) hpos hend hbuf
      hroom hp (w n)
    dsimp only at hu hwritten
    obtain ⟨val', buf', codes, v, hloop, hval', hrun, hadmitted⟩ := ih hwritten
      (fun c hc => hne c (List.mem_cons_of_mem chunk hc)) (by omega) (by rwa [Nat.add_assoc])
      (fun y hy => by
        have hy' := hD (chunk.length + y) (by omega)
        rw [List.getElem?_append_right (by omega), Nat.add_sub_cancel_left] at hy'
        rw [hy', Nat.add_assoc])
      (Session.loadBuf buf chunk) (Int.natCast_nonneg chunk.length)
    refine ⟨val', buf', chunk.length :: codes, v, ?_, hval', ?_, ⟨hp, ?_⟩, fun r u' hu' => ?_⟩
    · rw [putLoop_cons hu, if_neg (not_not.2 rfl)]
      exact hloop
    · rw [putCalls, runCalls, exec, hu, ok_bind]
      dsimp only
      rw [hrun]
      rfl
    · intro j hj _
      obtain rfl := Sum.inr.inj (h.resolve.symm.trans hj)
      exact h.appendFits hpos (by omega) hroom
    · obtain ⟨-, rfl⟩ := Prod.mk.inj (Except.ok.inj (hu.symm.trans hu'))
      exact hadmitted

/-! ## What `put` leaves -/

/-- A file is created where there is none, and nowhere else. -/
theorem create_eq_of_zero {q : List Name} (h : (M.create q o).1 = 0) :
    M.create q o = (0, update M q (some o)) := by
  have herror : M.error q ≠ 0 := by
    unfold Store.error
    split <;> decide
  unfold Store.create at h ⊢
  split at h
  · exact absurd (show (-EEXIST : ℤ) = 0 from h) (by decide)
  · next hnone =>
    rw [if_neg hnone]
    split at h
    · exact absurd h herror
    · next hdir =>
      rw [if_neg hdir]
      split at h
      · next hroom => exact if_pos hroom
      · exact absurd (show (-ENOSPC : ℤ) = 0 from h) (by decide)

/-- The writes of `put`, on the store. -/
theorem execAll_putCalls (w : ℕ → Context) (buf : ℕ → UInt8) (chunks : List (List UInt8))
    (ho : M path.tokens = some o) (hfile : o.isDir = false) :
    (M.execAll ((putCalls w path o.bytes.length buf chunks).map Prod.snd)).2 =
      update M path.tokens (some { o with bytes := o.bytes ++ chunks.flatten }) := by
  induction chunks generalizing M o buf with
  | nil =>
    rw [List.flatten_nil, List.append_nil, ← ho, update_eq_self]
    rfl
  | cons chunk rest ih =>
    have hchunk : (List.range chunk.length).map (Session.loadBuf buf chunk) = chunk := by
      refine List.ext_getElem (by simp) fun x hx hx' => ?_
      have := loadBuf_of_lt buf hx'
      rw [List.getElem?_eq_getElem hx'] at this
      simpa using Option.some.inj this
    have hexec : M.exec (.write path (Session.loadBuf buf chunk) chunk.length o.bytes.length) =
        ((chunk.length : ℤ), (update M path.tokens (some { o with bytes := o.bytes ++ chunk }) : Store)) := by
      simp only [Store.exec]
      rw [Store.withObject_of_some ho, if_neg (by simp [hfile]), if_neg (lt_irrefl _), hchunk,
        List.take_of_length_le le_rfl, List.drop_of_length_le (by omega), List.append_nil]
    have hself : (update M path.tokens (some { o with bytes := o.bytes ++ chunk }) : Store) path.tokens =
        some { o with bytes := o.bytes ++ chunk } := update_self _ _ _
    have hrest := ih (Session.loadBuf buf chunk) hself hfile
    rw [List.length_append] at hrest
    rw [putCalls, List.map_cons, Store.execAll, hexec]
    dsimp only at hrest ⊢
    rw [hrest, update_idem, List.flatten_cons, List.append_assoc]

/-- A call of `fs_mknod` that returns 0 has created something. -/
theorem exists_created {c : Context} {mode : UInt32} (hwf : Wf s) (hmk : s.fsMknod c path mode = .ok (0, t)) :
    ∃ p j i name fresh, s.Parent path p name ∧ Created c mode p j i name fresh s t := by
  generalize hr : (0 : ℤ) = r at hmk
  cases fsMknod_ok hwf hmk with
  | badPath he =>
    have := error_neg he
    omega
  | «exists» => exact absurd hr (by decide)
  | noInode => exact absurd hr (by decide)
  | noSlot => exact absurd hr (by decide)
  | noBlock => exact absurd hr (by decide)
  | created hpar hc => exact ⟨_, _, _, _, _, hpar, hc⟩

/-- A new file takes no block. -/
theorem Created.freeCount_eq {c : Context} {mode : UInt32} {p j : ℕ} {name : Name} {fresh : Option ℕ}
    (hreg : sIsReg mode = true) (h : Created c mode p j i name fresh s t) : t.freeCount = s.freeCount := by
  obtain rfl : fresh = none := by
    rw [← Option.not_isSome_iff_eq_none, h.fresh_isSome, sIsDir_of_regular ((sIsReg_iff _).1 hreg)]
    decide
  have hmap : t.blockMap = s.blockMap := by
    funext b
    rw [h.blockMap]
    simp
  rw [freeCount, freeCount, hmap]

end FS

namespace Session

variable {g : Layout} {s : Session g} {N : NameTree} {M : Store} {path : Path} {outside inside : Name}
  {D : List UInt8}

/-- **`put`** on a path that leads nowhere, if there is room: the calls that it makes, all within the
limits, and what it leaves. -/
theorem doPut_eq (hwf : FS.WellFormed s.fs) (hblk : 0 < s.shell.blksiz) (hfile : s.files outside = some D)
    (hlen : D.length ≤ 262 * 1024) (hfree : fileBlocks D.length ≤ s.fs.freeCount)
    (hpath : s.shell.pathTo inside = .ok path) (hp : path.Proper) (m : Moment) {t : FS g}
    (hmk : s.fs.fsMknod m.call path 0x81FF = .ok (0, t)) :
    ∃ chunks codes u blkbuf, chunks.flatten = D ∧
      s.doPut m outside inside = .ok ⟨[], 0, { s with fs := u, shell := { s.shell with blkbuf } }⟩ ∧
      t.runCalls (FS.putCalls m.write path 0 s.shell.blkbuf chunks) = .ok (codes, u) ∧
      t.AllAdmitted (FS.putCalls m.write path 0 s.shell.blkbuf chunks) := by
  obtain ⟨p, j, i, name, fresh, hpar, hc⟩ := FS.exists_created hwf.toWf hmk
  have hreg : sIsReg 0x81FF = true := by decide
  have hsize : 0 < s.shell.blksiz.toInt := by simpa using Int32.lt_iff_toInt_lt.1 hblk
  have hflat : (reads (mallocSize s.shell.blksiz) D.length D).flatten = D :=
    FS.flatten_reads (Int.pos_iff_toNat_pos.1 hsize) le_rfl
  have hwritten := hc.written hwf hpar hreg fun y => D.getD y 0
  obtain ⟨val, blkbuf, codes, u, hloop, hval, hrun, hadmitted⟩ :=
    hwritten.putLoop hp (fun c hc => FS.ne_nil_of_mem_reads hc) (by rw [hflat]; omega)
      (by rw [hflat, Nat.zero_add, hc.freeCount_eq hreg]; exact hfree)
      (fun y hy => by
        rw [hflat] at hy ⊢
        simp [hy]) m.write s.shell.blkbuf (le_refl (0 : ℤ))
  refine ⟨_, codes, u, blkbuf, hflat, ?_, hrun, hadmitted⟩
  rw [doPut, hfile]
  dsimp only
  rw [hpath, Checked.ok_bind, show (0x1FF ||| S_IFREG : UInt32) = 0x81FF from rfl, hmk]
  dsimp only [fsOp]
  rw [Checked.ok_bind]
  dsimp only
  rw [if_neg (by simp), hloop, Checked.ok_bind]
  dsimp only
  rw [if_pos hval]

/-- **`get`** of what a store has, from any state that is like one that backs it. -/
theorem doGet_eq {v : FS g} {o : Object} (h : FS.Backs v N M) (ha : FS.Alike v s.fs) (sys : System)
    (hcreate : sys.creatable outside = true) (hpath : s.shell.pathTo inside = .ok path)
    (hlen : path.tokens.length ≤ 63) (ho : M path.tokens = some o) (hreg : o.isDir = false)
    (hedge : ¬ OnEdge o.bytes.length) :
    (o.bytes.length < mallocSize s.shell.blksiz → ∃ blkbuf, s.doGet sys inside outside = .ok ⟨[], 0, { s with
      shell := { s.shell with blkbuf }, files := update s.files outside (some o.bytes) }⟩) ∧
    (mallocSize s.shell.blksiz ≤ o.bytes.length → s.doGet sys inside outside =
      .error (.blkbuf (mallocSize s.shell.blksiz) (min (sizeT s.shell.blksiz) o.bytes.length))) := by
  have hloop := h.getLoop ha hlen ho hreg hedge s.shell.blksiz s.shell.blkbuf
  rw [doGet, if_pos hcreate, hpath, Checked.ok_bind, getBytes]
  constructor
  · intro hroom
    obtain ⟨blkbuf, hall⟩ := hloop.1 hroom
    refine ⟨blkbuf, ?_⟩
    rw [hall, Checked.ok_bind]
    dsimp only
    rw [if_pos le_rfl]
  · intro hover
    rw [hloop.2 hover]
    rfl

/-- **What was put in is what comes out.**  After any run of calls within the limits on a new image,
with room for the blocks of a file of at most 262 blocks, and where the store has room for one more
object at the path, `put` leaves what the store has with the file at the path, and changes no more.
And `get` gives the file back byte for byte, in the same process or in a later one that has mounted
the image again, whatever the current directory is then, if the block size is more than the length;
with any other block size it stores a byte behind the end of `blkbuf`.  Lengths on an edge are left
out. -/
theorem get_of_put {n : ℕ} (h : Formattable n) (hino : 64 ≤ (layout h).numInodes) (t : UInt32)
    {calls : List (Context × Call)} (hfit : (fresh h t).AllAdmitted calls) {codes : List ℤ}
    {s : Session (layout h)} (hrun : (fresh h t).runCalls calls = .ok (codes, s.fs)) (m : Moment)
    (hblk : 0 < s.shell.blksiz) (hfile : s.files outside = some D) (hlen : D.length ≤ 262 * 1024)
    (hfree : fileBlocks D.length ≤ s.fs.freeCount) (hpath : s.shell.pathTo inside = .ok path)
    (hp : path.Proper)
    (hnew : ((Store.root.execAll (calls.map Prod.snd)).2.create path.tokens ⟨0x81FF, []⟩).1 = 0) :
    ∃ v blkbuf, s.doPut m outside inside =
        .ok ⟨[], 0, { s with fs := v, shell := { s.shell with blkbuf } }⟩ ∧
      v.Shows (update (Store.root.execAll (calls.map Prod.snd)).2 path.tokens (some ⟨0x81FF, D⟩)) ∧
      (∃ w, fsInit v.image = .ok ⟨layout h, w⟩) ∧
      ∀ (sys : System) (u : Session (layout h)) (inside' copy : Name) (path' : Path),
        u.fs = v ∨ fsInit v.image = .ok ⟨_, u.fs⟩ →
        u.shell.pathTo inside' = .ok path' → path'.tokens = path.tokens → sys.creatable copy = true →
        ¬ OnEdge D.length →
        (D.length < mallocSize u.shell.blksiz → ∃ blkbuf', u.doGet sys inside' copy = .ok ⟨[], 0, { u with
          shell := { u.shell with blkbuf := blkbuf' }, files := update u.files copy (some D) }⟩) ∧
        (mallocSize u.shell.blksiz ≤ D.length → u.doGet sys inside' copy =
          .error (.blkbuf (mallocSize u.shell.blksiz) (min (sizeT u.shell.blksiz) D.length))) := by
  obtain ⟨s', hs', N, hback⟩ := (FS.backs_fresh h t hino).run hfit
  obtain ⟨-, rfl⟩ := Prod.mk.inj (Except.ok.inj (hrun.symm.trans hs'))
  have hsteady := (FS.steady_fresh h t).run hfit.allSafe hrun
  generalize (Store.root.execAll (calls.map Prod.snd)).2 = M at hback hnew ⊢
  have hadmit : s.fs.Admits (.mknod path 0x81FF) := ⟨hp, (sIsReg_iff _).1 (by decide)⟩
  obtain ⟨r, v, hmk, hr, N', hmade⟩ := hback.call (c := m.call) hadmit
  rw [Store.exec, FS.create_eq_of_zero hnew] at hr hmade
  dsimp only at hr hmade
  subst hr
  obtain ⟨chunks, codes', w, blkbuf, rfl, hput, hwrites, hadmitted⟩ :=
    doPut_eq hback.toWellFormed hblk hfile hlen hfree hpath hp m hmk
  obtain ⟨w', hw', N'', hfinal⟩ := hmade.run hadmitted
  obtain ⟨-, rfl⟩ := Prod.mk.inj (Except.ok.inj (hwrites.symm.trans hw'))
  have hstore := FS.execAll_putCalls m.write s.shell.blkbuf chunks
    (update_self path.tokens (some ⟨0x81FF, []⟩) M) rfl
  rw [update_idem] at hstore
  dsimp only [List.length_nil, List.nil_append] at hstore
  rw [hstore] at hfinal
  have hsteady' := (hsteady.safeCall hadmit.safe hmk).run hadmitted.allSafe hwrites
  have hsb := FS.describes_of_disk (describes h t) hsteady'.superblock
  refine ⟨w, blkbuf, hput, hfinal.shows, ⟨_, fsInit_eq hsb⟩, fun sys u inside' copy path' hu hpath' htokens hcreate hedge => ?_⟩
  have halike : FS.Alike w u.fs := by
    rcases hu with hsame | hmounted
    · rw [hsame]
      exact .refl w
    · rw [fsInit_eq hsb] at hmounted
      obtain ⟨-, heq⟩ := Sigma.mk.inj (Except.ok.inj hmounted)
      rw [← eq_of_heq heq]
      exact hsteady'.synced.alike_mounted hsb
  have hshort : path'.tokens.length ≤ 63 := by
    rw [htokens]
    exact hp.small.1
  have ho : update M path.tokens (some ⟨0x81FF, chunks.flatten⟩) path'.tokens = some ⟨0x81FF, chunks.flatten⟩ := by
    rw [htokens]
    exact update_self _ _ _
  have hreg : sIsDir 0x81FF = false := by decide
  exact doGet_eq hfinal halike sys hcreate hpath' hshort ho hreg hedge

/-- The shell in the directory `/a`, and 3000 bytes outside. -/
def sampleSession (fs : FS (layout formattable_256)) : Session (layout formattable_256) where
  fs := fs
  shell := { Shell.start with cwd := ascii "/a", paths := fun _ => ascii "a", depth := 1 }
  files := fun _ => some (List.replicate 3000 7)

/-- A system on which every file can be made. -/
def sampleSystem : System := ⟨fun _ => [], fun _ => [], true, fun _ => true⟩

/-- The file is put to `/a/b` in pieces of 1000 bytes, and got after a remount, from the root and with a
buffer of 4096 bytes. -/
theorem get_of_put_sample : ∃ (s v w : FS (layout formattable_256)) (a b : Answer (layout formattable_256)),
    (fresh formattable_256 0).runCalls [(⟨1000, 1000, 0⟩, .mkdir pathA 0x1ED)] = .ok ([0], s) ∧
      (sampleSession s).doPut ⟨⟨1000, 1000, 1⟩, fun _ => ⟨1000, 1000, 2⟩⟩ (ascii "x") (ascii "b") = .ok a ∧
      a.ret = 0 ∧ a.next.fs = v ∧ fsInit v.image = .ok ⟨_, w⟩ ∧
      Session.doGet ⟨w, { Shell.start with blksiz := 4096 }, fun _ => none⟩ sampleSystem (ascii "a/b") (ascii "y") =
        .ok b ∧ b.ret = 0 ∧ b.next.files (ascii "y") = some (List.replicate 3000 7) := by
  let c : Context := ⟨1000, 1000, 1⟩
  have hrun : ((fresh formattable_256 0).runCalls [(⟨1000, 1000, 0⟩, .mkdir pathA 0x1ED)]).map (fun x =>
      (x.1, decide (fileBlocks 3000 ≤ x.2.freeCount), (x.2.exec c (.mknod pathAB 0x81FF)).map Prod.fst)) =
      .ok ([0], true, .ok 0) := by
    decide +kernel
  have hfit : (fresh formattable_256 0).AllAdmitted [(⟨1000, 1000, 0⟩, .mkdir pathA 0x1ED)] := by
    decide +kernel
  obtain ⟨s, hs, N, hback⟩ := (FS.backs_fresh formattable_256 0 (by decide)).run hfit
  rw [hs] at hrun
  obtain ⟨hcodes, hrest⟩ := Prod.mk.inj (Except.ok.inj hrun)
  obtain ⟨hfree, hmk⟩ := Prod.mk.inj hrest
  have hadmit : s.Admits (.mknod pathAB 0x81FF) := ⟨by decide, (sIsReg_iff _).1 (by decide)⟩
  obtain ⟨r, t, ht, hr, -⟩ := hback.call (c := c) hadmit
  rw [ht] at hmk
  have hnew := hr.symm.trans (Except.ok.inj hmk)
  have hblk : (0 : Int32) < 1000 := by decide
  have hlen : (List.replicate 3000 (7 : UInt8)).length ≤ 262 * 1024 := by
    rw [List.length_replicate]
    decide
  have hroom : fileBlocks (List.replicate 3000 (7 : UInt8)).length ≤ s.freeCount := by
    rw [List.length_replicate]
    exact of_decide_eq_true hfree
  have hedge : ¬ OnEdge (List.replicate 3000 (7 : UInt8)).length := by
    rw [List.length_replicate]
    decide
  have hfits : (List.replicate 3000 (7 : UInt8)).length < mallocSize 4096 := by
    rw [List.length_replicate]
    decide
  obtain ⟨v, blkbuf, hput, -, ⟨w, hw⟩, hget⟩ := get_of_put formattable_256 (by decide) 0 (s := sampleSession s)
    hfit hs ⟨c, fun _ => ⟨1000, 1000, 2⟩⟩ hblk (show (sampleSession s).files (ascii "x") = _ from rfl)
    hlen hroom (show (sampleSession s).shell.pathTo (ascii "b") = .ok pathAB from rfl) (by decide) hnew
  obtain ⟨blkbuf', hget⟩ := (hget sampleSystem ⟨w, { Shell.start with blksiz := 4096 }, fun _ => none⟩
    (ascii "a/b") (ascii "y") pathAB (Or.inr hw) rfl rfl rfl hedge).1 hfits
  have hcopy : update (fun _ : Name => (none : Option (List UInt8))) (ascii "y")
      (some (List.replicate 3000 7)) (ascii "y") = some (List.replicate 3000 7) := update_self _ _ _
  exact ⟨s, v, w, _, _, by rw [hs, hcodes], hput, rfl, rfl, hw, hget, rfl, hcopy⟩

end Session

end Fsx600
