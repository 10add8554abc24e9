import Fsx600.Spec.Returns
import Fsx600.Spec.Fresh

/-!
# Paths and the fixed tables

The three tokenisers fill `tokens[64]` in a loop that does not look at the index, and two of
them read one slot past the last token.  The last component goes to a buffer of 26 bytes
without a check of its length.  So whether an access leaves its table depends on the number
of components, on the length of the last one and, with exactly 64 of them, on how far the
walk gets.

* `parsesInside_iff`: when no access of the tokenisers, `fs_mknod` and `fs_rename` leaves its
  table, and the names that these two store are terminated;
* `WellFormed.not_leads`: a well-formed tree is too low for the walk to read slot 64.

The state may be ill formed, but the name fields that a walk meets end in NUL, as `fsx600.h` has it
(`FieldsEnd`): from any other field `strcmp` runs on into the next slot.
-/

namespace Fsx600

open Checked Function

/-- An access outside `tokens[64]` or a name buffer. -/
def Fault.OffTable : Fault → Prop
  | .tokenIndex _ | .nameBuffer _ => True
  | .badBlock _ _ | .inodeIndex _ | .mapIndex _ | .imageSize _ => False

/-- The last component has room in 26 bytes, its NUL included. -/
def Path.LastFits (p : Path) : Prop := ∀ last ∈ p.tokens.getLast?, last.length + 1 ≤ 26

theorem Path.split_avoids {p : Path} (h : p.tokens.length ≤ 64) : Avoids Fault.OffTable p.split := by
  rw [split, if_pos h]
  exact avoids_ok _

theorem bufferString_avoids {t : Name} (ht : t.length ≤ 25) :
    Avoids Fault.OffTable (bufferString (t ++ List.replicate (26 - t.length) 0)) := by
  obtain ⟨n, hn⟩ := FS.bufferString_returns ht
  rw [hn]
  exact avoids_ok _

/-- `get_last_of_split` reads `tokens[-1]` when there is no token. -/
theorem getLastOfSplit_avoids_iff {p : Path} :
    Avoids Fault.OffTable (getLastOfSplit p) ↔ 0 < p.tokens.length ∧ p.tokens.length ≤ 64 := by
  constructor
  · intro h
    by_cases hle : p.tokens.length ≤ 64
    · refine ⟨List.length_pos_iff.mpr fun hnil => ?_, hle⟩
      refine h (.tokenIndex (-1)) ?_ trivial
      rw [getLastOfSplit, Path.split, if_pos hle, ok_bind, hnil]
      rfl
    · refine absurd trivial (h (.tokenIndex 64) ?_)
      rw [getLastOfSplit, Path.split, if_neg hle]
      rfl
  · rintro ⟨hpos, hle⟩
    rw [getLastOfSplit]
    refine (Path.split_avoids hle).bind fun q hq => ?_
    obtain rfl := Path.split_ok hq
    cases hl : p.tokens.getLast? with
    | none => exact absurd (List.getLast?_eq_none_iff.mp hl) (List.length_pos_iff.mp hpos)
    | some last => exact avoids_ok _

namespace FS

variable {g : Layout} {s s' : FS g} {c : Context} {path : Path} {r : ℤ}

/-! ## The walks -/

theorem inode_avoids (i : ℤ) : Avoids Fault.OffTable (s.inode i) := by
  rw [inode]
  split
  · exact avoids_ok _
  · exact avoids_error id

theorem readBlock_avoids (p : ℕ) : Avoids Fault.OffTable (s.readBlock p) := by
  rw [readBlock]
  split
  · exact avoids_ok _
  · exact avoids_error id

theorem writeBlock_avoids (p : ℕ) (b : Block) : Avoids Fault.OffTable (s.writeBlock p b) := by
  rw [writeBlock]
  split
  · exact avoids_ok _
  · exact avoids_error id

/-- From `d` the names lead on through directories, inside the inode table and the image. -/
def Leads (s : FS g) : ℕ → List Name → Prop
  | _, [] => True
  | d, n :: rest => d < g.numInodes ∧ ((s.inodes d).directAt 0).toNat < g.nblks ∧
      ∃ j, findEntry (s.dirBlock d) n = some j ∧ (s.entry d j).isDir = true ∧
        s.Leads (s.entry d j).inode.toNat rest

/-- The directories whose blocks the walks read: the root, and where valid entries lead that say
they are directories. -/
inductive Walked (s : FS g) : ℕ → Prop
  | root : s.Walked 1
  | entry {d j : ℕ} (hd : s.Walked d) (hlt : d < g.numInodes)
      (hblock : ((s.inodes d).directAt 0).toNat < g.nblks) (hj : j < 32)
      (hvalid : (s.entry d j).valid = true) (hdir : (s.entry d j).isDir = true) :
      s.Walked (s.entry d j).inode.toNat

/-- The name fields that `strcmp` is called on end in NUL: `char name[28]`, "with trailing NUL". -/
def FieldsEnd (s : FS g) : Prop :=
  ∀ d, s.Walked d → d < g.numInodes → ((s.inodes d).directAt 0).toNat < g.nblks →
    ∀ j < 32, (s.entry d j).nameByte 27 = 0

/-- They do in a well-formed state. -/
theorem Wf.fieldsEnd (h : Wf s) : s.FieldsEnd := by
  have halloc : ∀ d, s.Walked d → s.AllocDir d := by
    intro d hd
    induction hd with
    | root => exact h.allocDir_one
    | entry _ _ _ hk hvalid hdir ih =>
      have he : s.Edge _ _ _ := ⟨ih, hk, hvalid, rfl⟩
      exact ⟨(h.edge_child he).1, by rw [← h.edge_isDir he, hdir]⟩
  exact fun d hd _ _ j hj => h.name_nul d j (halloc d hd) hj

/-- The walk of `translate_path_to_inum` reads past the table with 64 tokens only, and only
when it gets to the last one. -/
theorem translateLoop_avoids {i d : ℕ} {q : List Name} (hq : i + q.length ≤ 64)
    (hlead : i + q.length = 64 → ¬ s.Leads d q.dropLast) :
    Avoids Fault.OffTable (s.translateLoop i d q) := by
  induction q generalizing i d with
  | nil => exact avoids_ok _
  | cons n q ih =>
    rw [List.length_cons] at hq hlead
    rw [translateLoop]
    refine (inode_avoids _).bind fun temp htemp => ?_
    obtain ⟨-, hd, rfl⟩ := inode_ok htemp
    rw [Int.toNat_natCast] at hd ⊢
    refine (readBlock_avoids _).bind fun block hblock => ?_
    obtain ⟨hb, rfl⟩ := readBlock_ok hblock
    rw [← dirBlock]
    cases hf : findEntry (s.dirBlock d) n with
    | none => exact avoids_ok _
    | some j =>
      dsimp only
      by_cases hi : i + 1 < 64
      · rw [if_pos hi]
        split
        · exact avoids_ok _
        · next hj =>
          refine ih (by omega) fun h64 hleads => ?_
          cases q with
          | nil => rw [List.length_nil] at h64; omega
          | cons m q =>
            have hdir : (s.entry d j).isDir = true := by
              rw [entry]
              simpa using hj
            exact hlead (by rw [List.length_cons] at h64 ⊢; omega) ⟨hd, hb, j, hf, hdir, hleads⟩
      · -- the last of 64 tokens is found
        obtain rfl : q = [] := List.length_eq_zero_iff.mp (by omega)
        exact absurd trivial (hlead (by rw [List.length_nil]; omega))

theorem parentLoop_avoids {i d : ℕ} {q : List Name} (hq : i + q.length ≤ 64)
    (hlead : i + q.length = 64 → ¬ s.Leads d q.dropLast) :
    Avoids Fault.OffTable (s.parentLoop i d q) := by
  induction q generalizing i d with
  | nil => exact avoids_ok _
  | cons n q ih =>
    rw [List.length_cons] at hq hlead
    cases q with
    | nil =>
      rw [parentLoop]
      split
      · exact avoids_ok _
      · exact absurd trivial (hlead (by rw [List.length_nil] at hq ⊢; omega))
    | cons m q =>
      rw [parentLoop]
      refine (inode_avoids _).bind fun temp htemp => ?_
      obtain ⟨-, hd, rfl⟩ := inode_ok htemp
      rw [Int.toNat_natCast] at hd ⊢
      refine (readBlock_avoids _).bind fun block hblock => ?_
      obtain ⟨hb, rfl⟩ := readBlock_ok hblock
      rw [← dirBlock]
      cases hf : findEntry (s.dirBlock d) n with
      | none => exact avoids_ok _
      | some j =>
        dsimp only
        split
        · exact avoids_ok _
        · next hj =>
          have hdir : (s.entry d j).isDir = true := by
            rw [entry]
            simpa using hj
          exact ih (by omega) fun h64 hleads =>
            hlead (by omega) ⟨hd, hb, j, hf, hdir, hleads⟩

/-- At the last of 64 tokens `get_parent_inum` reads `tokens[64]`. -/
theorem parentLoop_error {i d : ℕ} {q : List Name} (hne : q ≠ []) (hq : i + q.length = 64)
    (hlead : s.Leads d q.dropLast) : s.parentLoop i d q = .error (.tokenIndex 64) := by
  induction q generalizing i d with
  | nil => exact absurd rfl hne
  | cons n q ih =>
    rw [List.length_cons] at hq
    cases q with
    | nil =>
      obtain rfl : i = 63 := by simpa using hq
      rfl
    | cons m q =>
      obtain ⟨hd, hb, j, hf, hdir, hleads⟩ := hlead
      rw [parentLoop, inode_eq_ok hd, ok_bind, readBlock_dir hb, ok_bind, hf]
      dsimp only
      rw [if_neg (by rw [← entry, hdir]; decide)]
      exact ih (List.cons_ne_nil _ _) (by omega) hleads

theorem parentLoop_walked {i d p : ℕ} {q : List Name} (hd : s.Walked d) (h : s.parentLoop i d q = .ok (p : ℤ)) :
    s.Walked p := by
  induction q generalizing i d with
  | nil =>
    obtain rfl := Int.ofNat.inj (Except.ok.inj h)
    exact hd
  | cons n q ih =>
    cases q with
    | nil =>
      rw [parentLoop, guard_eq_ok] at h
      obtain rfl := Int.ofNat.inj (Except.ok.inj h.2)
      exact hd
    | cons m q =>
      rw [parentLoop, bind_eq_ok] at h
      obtain ⟨temp, htemp, h⟩ := h
      obtain ⟨-, hlt, rfl⟩ := inode_ok htemp
      rw [Int.toNat_natCast] at hlt h
      rw [bind_eq_ok] at h
      obtain ⟨block, hblock, h⟩ := h
      obtain ⟨hb, rfl⟩ := readBlock_ok hblock
      rw [← dirBlock] at h
      cases hf : findEntry (s.dirBlock d) n with
      | none =>
        rw [hf] at h
        exact absurd (Or.inr (Except.ok.inj h).symm) (natCast_not_error p)
      | some j =>
        rw [hf] at h
        dsimp only at h
        rw [← entry] at h
        obtain ⟨hj, -, hvalid, -⟩ := findEntry_eq_some hf
        split at h
        · exact absurd (Or.inl (Except.ok.inj h).symm) (natCast_not_error p)
        · next hdir => exact ih (.entry hd hlt hb hj hvalid (by simpa using hdir)) h

/-- The parent that `get_parent_inum` gives is the root, or the walk has found it to be a directory. -/
theorem walked_of_getParentInum {d : ℕ} {buf : List UInt8} (h : s.getParentInum path = .ok ((d : ℤ), buf)) :
    s.Walked d := by
  rw [FS.getParentInum, bind_eq_ok] at h
  obtain ⟨q, hq, h⟩ := h
  cases hl : q.getLast? with
  | none =>
    rw [hl] at h
    have hcode := (Prod.mk.inj (Except.ok.inj h)).1
    unfold EINVAL at hcode
    omega
  | some last =>
    rw [hl] at h
    dsimp only at h
    split at h
    · rw [bind_eq_ok] at h
      obtain ⟨p, hp, h⟩ := h
      obtain ⟨rfl, -⟩ := Prod.mk.inj (Except.ok.inj h)
      exact parentLoop_walked .root hp
    · simp at h

/-- In the parent's block there is a slot with the inode that a path leads to. -/
theorem exists_slotOfInode {d : ℕ} {i : ℤ} {buf : List UInt8} (hparent : s.getParentInum path = .ok ((d : ℤ), buf))
    (hi : s.translatePathToInum path = .ok i) (hfound : ¬ (i = -ENOTDIR ∨ i = -ENOENT)) :
    ∃ n j : ℕ, i = n ∧ slotOfInode (s.dirBlock d) i = some j := by
  rcases walkers hi hparent with ⟨-, -, hcode⟩ | ⟨e, he, -, -, rfl, -⟩ | ⟨p, last, -, -, -, hcode, rfl, -⟩
  · unfold EINVAL at hcode
    omega
  · exact absurd he.symm hfound
  · obtain rfl := Int.ofNat.inj hcode
    cases hchild : s.child d last with
    | inl e =>
      rw [hchild, code_inl] at hfound
      exact absurd (child_error hchild).1 fun he => hfound (Or.inr he)
    | inr n =>
      obtain ⟨k, hk, hn⟩ := child_inode hchild
      refine ⟨n, (Option.isSome_iff_exists.1 (List.find?_isSome.2 ⟨k, ?_, ?_⟩)).imp fun j hj => ⟨rfl, hj⟩⟩
      · exact List.mem_range.2 (findEntry_eq_some hk).1
      · rw [code_inr, ← hn]
        exact beq_self_eq_true _

/-- The condition under which the tokenisers stay inside their tables. -/
structure Parseable (s : FS g) (path : Path) : Prop where
  pos : 0 < path.tokens.length
  le : path.tokens.length ≤ 64
  not_leads : path.tokens.length = 64 → ¬ s.Leads 1 path.tokens.dropLast
  lastFits : path.LastFits

theorem Parseable.translatePathToInum (h : s.Parseable path) :
    Avoids Fault.OffTable (s.translatePathToInum path) := by
  rw [FS.translatePathToInum]
  refine (Path.split_avoids h.le).bind fun q hq => ?_
  obtain rfl := Path.split_ok hq
  exact translateLoop_avoids (by have := h.le; omega) fun h64 => h.not_leads (by omega)

theorem Parseable.getParentInum (h : s.Parseable path) :
    Avoids Fault.OffTable (s.getParentInum path) := by
  rw [FS.getParentInum]
  refine (Path.split_avoids h.le).bind fun q hq => ?_
  obtain rfl := Path.split_ok hq
  cases hl : path.tokens.getLast? with
  | none => exact avoids_ok _
  | some last =>
    have := h.lastFits last hl
    dsimp only
    rw [if_pos (by omega)]
    refine (parentLoop_avoids (by have := h.le; omega) fun h64 => h.not_leads (by omega)).bind ?_
    exact fun _ _ => avoids_ok _

/-- The buffer that `get_parent_inum` fills, and the string in it. -/
theorem Parseable.buffer (h : s.Parseable path) {buf : List UInt8}
    (hr : s.getParentInum path = .ok (r, buf)) : ∃ last, path.tokens.getLast? = some last ∧
      last.length + 1 ≤ 26 ∧ 0 ∉ last ∧ buf = last ++ List.replicate (26 - last.length) 0 := by
  rcases getParentInum_ok hr with ⟨hnil, -⟩ | ⟨last, hlast, -, -, hbuf⟩
  · exact absurd hnil (List.length_pos_iff.mp h.pos)
  · exact ⟨last, hlast, h.lastFits last hlast,
      path.nul_notMem_of_mem_tokens (List.mem_of_mem_getLast? hlast), hbuf⟩

/-! ## Names that are stored -/

theorem getFreeInode_avoids : Avoids Fault.OffTable s.getFreeInode :=
  (FirstFit.scan_avoids fun _ => id).bind fun _ _ => avoids_ok _

theorem getFreeBlock_avoids : Avoids Fault.OffTable s.getFreeBlock :=
  (FirstFit.scan_avoids fun _ => id).bind fun _ _ => avoids_ok _

theorem mknodFinish_avoids (n : ℕ) (ino : Inode) (d : ℕ) (b : Block) :
    Avoids Fault.OffTable (s.mknodFinish n ino d b) :=
  (writeBlock_avoids _ _).bind fun _ _ => avoids_ok _

theorem Parseable.fsMknod (h : s.Parseable path) (c : Context) (mode : UInt32) :
    Avoids Fault.OffTable (s.fsMknod c path mode) := by
  rw [FS.fsMknod]
  refine h.translatePathToInum.bind fun ci _ => h.getParentInum.bind fun o ho => ?_
  obtain ⟨pi, buf⟩ := o
  obtain ⟨last, -, hlen, -, rfl⟩ := h.buffer ho
  dsimp only
  split
  · exact avoids_ok _
  refine (inode_avoids _).bind fun pino _ => ?_
  split
  · exact avoids_ok _
  split
  · exact avoids_ok _
  refine getFreeInode_avoids.bind fun o _ => ?_
  cases o with
  | none => exact avoids_ok _
  | some o =>
    obtain ⟨n, t⟩ := o
    refine (readBlock_avoids _).bind fun block _ => (inode_avoids _).bind fun old _ => ?_
    cases freeSlot block with
    | none => exact avoids_ok _
    | some j =>
      refine (bufferString_avoids (by omega)).bind fun name _ => ?_
      split
      · refine getFreeBlock_avoids.bind fun o _ => ?_
        cases o with
        | none => exact avoids_ok _
        | some o => exact (writeBlock_avoids _ _).bind fun u _ => mknodFinish_avoids _ _ _ _
      · exact mknodFinish_avoids _ _ _ _

/-- The block of the directory that `get_parent_inum` gives. -/
def parentBlock (s t : FS g) (d : ℤ) : Block := t.disk ((s.inodes d.toNat).directAt 0).toNat

/-- What `fs_mknod` stores is the last component, and a NUL ends it within the field. -/
theorem Parseable.fsMknod_stores (h : s.Parseable path) {mode : UInt32}
    (hr : s.fsMknod c path mode = .ok (r, s')) :
    r < 0 ∨ ∃ d buf last j, s.getParentInum path = .ok (d, buf) ∧
      path.tokens.getLast? = some last ∧ j < 32 ∧
      ((s.parentBlock s' d).dirent j).named last = true := by
  rw [FS.fsMknod, bind_eq_ok] at hr
  obtain ⟨ci, -, hr⟩ := hr
  rw [bind_eq_ok] at hr
  obtain ⟨⟨pi, buf⟩, hpi, hr⟩ := hr
  obtain ⟨last, hlast, hlen, hnul, rfl⟩ := h.buffer hpi
  dsimp only at hr
  split at hr
  · next he =>
    obtain ⟨rfl, -⟩ := Prod.mk.inj (Except.ok.inj hr)
    exact Or.inl (error_neg he.symm)
  rw [bind_eq_ok] at hr
  obtain ⟨pino, hpino, hr⟩ := hr
  obtain ⟨-, -, rfl⟩ := inode_ok hpino
  split at hr
  · obtain ⟨rfl, -⟩ := Prod.mk.inj (Except.ok.inj hr)
    exact Or.inl (by decide)
  split at hr
  · obtain ⟨rfl, -⟩ := Prod.mk.inj (Except.ok.inj hr)
    exact Or.inl (by decide)
  rw [bind_eq_ok] at hr
  obtain ⟨o, ho, hr⟩ := hr
  rcases getFreeInode_ok ho with ⟨rfl, -⟩ | ⟨n, -, -, rfl⟩
  · obtain ⟨rfl, -⟩ := Prod.mk.inj (Except.ok.inj hr)
    exact Or.inl (by decide)
  dsimp only at hr
  rw [bind_eq_ok] at hr
  obtain ⟨block, -, hr⟩ := hr
  rw [bind_eq_ok] at hr
  obtain ⟨old, -, hr⟩ := hr
  cases hslot : freeSlot block with
  | none =>
    rw [hslot] at hr
    obtain ⟨rfl, -⟩ := Prod.mk.inj (Except.ok.inj hr)
    exact Or.inl (by decide)
  | some j =>
    rw [hslot] at hr
    dsimp only at hr
    rw [bind_eq_ok] at hr
    obtain ⟨name, hname, hr⟩ := hr
    obtain ⟨rfl, -⟩ := bufferString_ok hnul hname
    have hj := (freeSlot_eq_some hslot).1
    have hnamed : (newDirent name mode n).named name = true :=
      (Dirent.named_iff (newDirent_holds mode n) hnul (by omega) hnul).mpr rfl
    -- the block of the parent is the last that is written
    have hfinish : ∀ {t : FS g} {ino : Inode}, t.mknodFinish n ino
        ((s.inodes pi.toNat).directAt 0).toNat (block.setDirent j (newDirent name mode n)) =
          .ok (r, s') → ((s.parentBlock s' pi).dirent j).named name = true := by
      intro t ino ht
      obtain ⟨-, rfl⟩ := mknodFinish_ok ht
      rw [parentBlock, disk_putBlock, if_pos rfl, Block.dirent_setDirent_self _ _ hj]
      exact hnamed
    split at hr
    · rw [bind_eq_ok] at hr
      obtain ⟨o, -, hr⟩ := hr
      cases o with
      | none =>
        obtain ⟨rfl, -⟩ := Prod.mk.inj (Except.ok.inj hr)
        exact Or.inl (by decide)
      | some o =>
        dsimp only at hr
        rw [bind_eq_ok] at hr
        obtain ⟨u, -, hr⟩ := hr
        exact Or.inr ⟨pi, _, name, j, hpi, hlast, hj, hfinish hr⟩
    · exact Or.inr ⟨pi, _, name, j, hpi, hlast, hj, hfinish hr⟩

theorem renameEntry_avoids (b : Block) (i : ℤ) (new : Name) :
    Avoids Fault.OffTable (renameEntry c s b i new) := by
  rw [renameEntry]
  cases slotOfInode b i with
  | none => exact avoids_ok _
  | some j => exact (inode_avoids _).bind fun _ _ => avoids_ok _

theorem Parseable.fsRename (h : s.Parseable path) (c : Context) {srcPath : Path}
    (hsrc : Avoids Fault.OffTable (s.translatePathToInum srcPath))
    (hsrc' : Avoids Fault.OffTable (s.getParentInum srcPath)) :
    Avoids Fault.OffTable (s.fsRename c srcPath path) := by
  rw [FS.fsRename]
  refine hsrc'.bind fun o _ => ?_
  obtain ⟨pi, buf⟩ := o
  refine hsrc.bind fun ci _ => h.getParentInum.bind fun o' ho' => ?_
  obtain ⟨pi', buf'⟩ := o'
  obtain ⟨last, -, hlen, -, rfl⟩ := h.buffer ho'
  dsimp only
  split
  · exact avoids_ok _
  split
  · exact avoids_ok _
  refine (inode_avoids _).bind fun pino _ => (readBlock_avoids _).bind fun block _ => ?_
  refine (bufferString_avoids (by omega)).bind fun name _ => ?_
  split
  · exact avoids_ok _
  refine (renameEntry_avoids _ _ _).bind fun o _ => ?_
  obtain ⟨t, b⟩ := o
  exact (writeBlock_avoids _ _).bind fun _ _ => avoids_ok _

/-- What `fs_rename` stores is the last component and the rest of the old name, and the NUL that was
the last byte of the field is one still. -/
theorem Parseable.fsRename_stores (h : s.Parseable path) (hs : s.FieldsEnd) {srcPath : Path}
    (hr : s.fsRename c srcPath path = .ok (r, s')) :
    r < 0 ∨ ∃ d buf last i j, s.getParentInum path = .ok (d, buf) ∧ path.tokens.getLast? = some last ∧
      s.translatePathToInum srcPath = .ok i ∧ slotOfInode (s.parentBlock s d) i = some j ∧
        ((s.parentBlock s' d).dirent j).Terminated ∧ last <+: ((s.parentBlock s' d).dirent j).cname := by
  rw [FS.fsRename, bind_eq_ok] at hr
  obtain ⟨⟨pi, buf⟩, hpi, hr⟩ := hr
  dsimp only at hr
  rw [bind_eq_ok] at hr
  obtain ⟨ci, hci, hr⟩ := hr
  rw [bind_eq_ok] at hr
  obtain ⟨⟨pi', buf'⟩, hpi', hr⟩ := hr
  obtain ⟨last, hlast, hlen, hnul, rfl⟩ := h.buffer hpi'
  dsimp only at hr
  split at hr
  · next he =>
    obtain ⟨rfl, -⟩ := Prod.mk.inj (Except.ok.inj hr)
    exact Or.inl (error_neg he.symm)
  next hfound =>
  split at hr
  · obtain ⟨rfl, -⟩ := Prod.mk.inj (Except.ok.inj hr)
    exact Or.inl (by decide)
  next hpp =>
  obtain rfl := not_not.mp hpp
  rw [bind_eq_ok] at hr
  obtain ⟨pino, hpino, hr⟩ := hr
  obtain ⟨hpos, hd, rfl⟩ := inode_ok hpino
  obtain ⟨d, rfl⟩ := Int.eq_ofNat_of_zero_le hpos
  rw [Int.toNat_natCast] at hd hr
  rw [bind_eq_ok] at hr
  obtain ⟨block, hblock, hr⟩ := hr
  obtain ⟨hb, rfl⟩ := readBlock_ok hblock
  rw [bind_eq_ok] at hr
  obtain ⟨name, hname, hr⟩ := hr
  obtain ⟨rfl, -⟩ := bufferString_ok hnul hname
  split at hr
  · obtain ⟨rfl, -⟩ := Prod.mk.inj (Except.ok.inj hr)
    exact Or.inl (by decide)
  rw [bind_eq_ok] at hr
  obtain ⟨⟨t, b⟩, ht, hr⟩ := hr
  dsimp only at hr
  rw [bind_eq_ok] at hr
  obtain ⟨u, hu, hr⟩ := hr
  obtain ⟨-, rfl⟩ := writeBlock_ok hu
  obtain ⟨-, rfl⟩ := Prod.mk.inj (Except.ok.inj hr)
  obtain ⟨n, j, rfl, hj⟩ := exists_slotOfInode hpi hci hfound
  obtain ⟨-, rfl⟩ := renameEntry_ok ht hj
  have hj32 : j < 32 := List.mem_range.mp (List.mem_of_find?_eq_some hj)
  have hend := hs d (walked_of_getParentInum hpi) hd hb j hj32
  refine Or.inr ⟨d, _, name, n, j, hpi', hlast, hci, hj, ?_⟩
  rw [parentBlock, Int.toNat_natCast, disk_putBlock, if_pos rfl, Block.dirent_setDirent_self _ _ hj32]
  exact ⟨⟨27, by omega, (Dirent.nameByte_copyName_of_le _ (by omega)).trans hend⟩,
    Dirent.prefix_cname_copyName _ (by omega) hnul⟩

/-! ## The condition is exact -/

/-- No access that a path leads to leaves `tokens[64]` or a name buffer, and the names that
are stored end within their field. -/
structure ParsesInside (s : FS g) (path : Path) : Prop where
  translate : Avoids Fault.OffTable (s.translatePathToInum path)
  parent : Avoids Fault.OffTable (s.getParentInum path)
  last : Avoids Fault.OffTable (getLastOfSplit path)
  /-- The copy of the last component and its NUL have room in 26 bytes. -/
  room : ∀ last ∈ path.tokens.getLast?, last.length + 1 ≤ 26
  copied : ∀ r buf, s.getParentInum path = .ok (r, buf) → buf.length = 26 ∧ 0 ∈ buf
  mknod : ∀ c mode, Avoids Fault.OffTable (s.fsMknod c path mode) ∧
    ∀ r s', s.fsMknod c path mode = .ok (r, s') → r < 0 ∨ ∃ d buf last j,
      s.getParentInum path = .ok (d, buf) ∧ path.tokens.getLast? = some last ∧ j < 32 ∧
        ((s.parentBlock s' d).dirent j).named last = true
  /-- As the destination of a source that is parsed inside the tables.  The entry that is renamed is
  the first one with the inode of the source. -/
  rename : ∀ c srcPath, Avoids Fault.OffTable (s.translatePathToInum srcPath) →
    Avoids Fault.OffTable (s.getParentInum srcPath) →
    Avoids Fault.OffTable (s.fsRename c srcPath path) ∧
      ∀ r s', s.fsRename c srcPath path = .ok (r, s') → r < 0 ∨ ∃ d buf last i j,
        s.getParentInum path = .ok (d, buf) ∧ path.tokens.getLast? = some last ∧
          s.translatePathToInum srcPath = .ok i ∧ slotOfInode (s.parentBlock s d) i = some j ∧
          ((s.parentBlock s' d).dirent j).Terminated ∧ last <+: ((s.parentBlock s' d).dirent j).cname

/-- **Paths stay inside the fixed tables** exactly when they are parseable. -/
theorem parsesInside_iff (s : FS g) (hs : s.FieldsEnd) (path : Path) :
    s.ParsesInside path ↔ s.Parseable path := by
  constructor
  · intro h
    obtain ⟨hpos, hle⟩ := getLastOfSplit_avoids_iff.mp h.last
    refine ⟨hpos, hle, fun h64 hlead => ?_, h.room⟩
    refine h.parent (.tokenIndex 64) ?_ trivial
    rw [FS.getParentInum, Path.split, if_pos hle, ok_bind]
    cases hl : path.tokens.getLast? with
    | none => exact absurd (List.getLast?_eq_none_iff.mp hl) (List.length_pos_iff.mp hpos)
    | some last =>
      have := h.room last hl
      dsimp only
      rw [if_pos (by omega), parentLoop_error (List.length_pos_iff.mp hpos) (by omega) hlead]
      rfl
  · intro h
    refine ⟨h.translatePathToInum, h.getParentInum, getLastOfSplit_avoids_iff.mpr ⟨h.pos, h.le⟩,
      h.lastFits, fun r buf hr => ?_, fun c mode => ⟨h.fsMknod c mode, fun r s' => h.fsMknod_stores⟩,
      fun c srcPath hsrc hsrc' => ⟨h.fsRename c hsrc hsrc', fun r s' => h.fsRename_stores hs⟩⟩
    obtain ⟨last, -, hlen, -, rfl⟩ := h.buffer hr
    refine ⟨by rw [List.length_append, List.length_replicate]; omega, ?_⟩
    exact List.mem_append_right _ (List.mem_replicate.mpr ⟨by omega, rfl⟩)

/-- The path `/a/b` on an image with a directory `/a`. -/
theorem parsesInside_in_a : ∃ s, (Mkfs.fresh Mkfs.formattable_256 0).fsMkdir ⟨1000, 1000, 0⟩ pathA 0x1ED =
    .ok (0, s) ∧ s.ParsesInside pathAB := by
  obtain ⟨s, hs⟩ := exists_of_returned (show returned ((Mkfs.fresh Mkfs.formattable_256 0).fsMkdir
    ⟨1000, 1000, 0⟩ pathA 0x1ED) = some 0 by decide +kernel)
  have hwf : Wf s := (fsMkdir_ok (Mkfs.wf_fresh Mkfs.formattable_256 0) hs).wf (Mkfs.wf_fresh _ _)
  have hlen : pathAB.tokens.length = 2 := by decide
  exact ⟨s, hs, (parsesInside_iff s hwf.fieldsEnd pathAB).2
    ⟨by omega, by omega, fun h64 => by omega, by unfold Path.LastFits; decide⟩⟩

/-- A name of 26 bytes. -/
def longName : Path := ⟨47 :: List.replicate 26 97, by decide⟩

/-- `fs_statfs` offers names of up to 27 bytes; one of 26 has no room for its NUL, and
`fs_mknod` runs past the end of its buffer. -/
theorem not_parsesInside : ¬ ∀ (g : Layout) (s : FS g) (path : Path), s.FieldsEnd → s.ParsesInside path := by
  intro h
  have hends : (Mkfs.fresh Mkfs.formattable_256 0).FieldsEnd := (Mkfs.wf_fresh Mkfs.formattable_256 0).fieldsEnd
  have hmknod := ((h _ (Mkfs.fresh Mkfs.formattable_256 0) longName hends).mknod ⟨1000, 1000, 0⟩ 0x81A4).1
  refine hmknod (.nameBuffer 26) ?_ trivial
  have hstop : (match (Mkfs.fresh Mkfs.formattable_256 0).fsMknod ⟨1000, 1000, 0⟩ longName 0x81A4 with
      | .ok _ => none
      | .error e => some e) = some (.nameBuffer 26) := by
    decide +kernel
  split at hstop
  · exact absurd hstop (by simp)
  · next e he => rw [he, Option.some.inj hstop]

/-- Names that lead on through directories are a walk. -/
theorem walk_of_leads {q : List Name} {d : ℕ} (h : s.Leads d q) : ∃ p, s.walk d q = .inr p := by
  induction q generalizing d with
  | nil => exact ⟨d, rfl⟩
  | cons n q ih =>
    obtain ⟨-, -, j, hf, hdir, hrest⟩ := h
    rw [walk, hf]
    dsimp only
    rw [if_pos hdir]
    exact ih hrest

/-- A well-formed tree has no 64 directories one below the other, so in it every path of 1 to
64 components whose last one has at most 25 bytes is parseable. -/
theorem WellFormed.not_leads (h : WellFormed s) {q : List Name} (hq : 63 ≤ q.length) :
    ¬ s.Leads 1 q := by
  intro hlead
  obtain ⟨p, hp⟩ := walk_of_leads hlead
  have := h.length_le (resolve_of_walk hp)
  omega

end FS

end Fsx600
