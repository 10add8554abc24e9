import Fsx600.Model.Path
import Mathlib.Data.List.Basic
import Mathlib.Data.List.Find

/-!
# What the path walkers compute

`translate_path_to_inum` and `get_parent_inum` check bounds at every step and are
written twice.  Stripped of the checks they are one function: `walk` goes down a list
of directory names, `child` looks up one more name, and `resolve` is the two together.

* `translateLoop_ok`, `parentLoop_ok`: if a walker returns, it returns that;
* `walkers`: what the two say about one path, side by side.
-/

namespace Fsx600

open Checked

/-! ## Tokens -/

theorem mem_of_mem_splitOn {α : Type*} [BEq α] {a : α} {l t : List α} (ht : t ∈ l.splitOn a)
    {x : α} (hx : x ∈ t) : x ∈ l := by
  rw [List.splitOn] at ht
  induction l generalizing t with
  | nil =>
    simp only [List.splitOnP_nil, List.mem_singleton] at ht
    exact ht ▸ hx
  | cons y l ih =>
    rw [List.splitOnP_cons_eq_if_modifyHead] at ht
    split at ht
    · rcases List.mem_cons.mp ht with rfl | ht
      · exact absurd hx List.not_mem_nil
      · exact List.mem_cons_of_mem _ (ih ht hx)
    · obtain ⟨u, us, hu⟩ := List.exists_cons_of_ne_nil (List.splitOnP_ne_nil (· == a) l)
      rw [hu, List.modifyHead_cons] at ht
      rcases List.mem_cons.mp ht with rfl | ht
      · rcases List.mem_cons.mp hx with rfl | hx
        · exact List.mem_cons_self
        · exact List.mem_cons_of_mem _ (ih (hu ▸ List.mem_cons_self) hx)
      · exact List.mem_cons_of_mem _ (ih (hu ▸ List.mem_cons_of_mem _ ht) hx)

/-- No piece holds the separator. -/
theorem notMem_of_mem_splitOn {α : Type*} [BEq α] [LawfulBEq α] {a : α} {l t : List α}
    (ht : t ∈ l.splitOn a) : a ∉ t := by
  rw [List.splitOn] at ht
  induction l generalizing t with
  | nil =>
    simp only [List.splitOnP_nil, List.mem_singleton] at ht
    exact ht ▸ List.not_mem_nil
  | cons y l ih =>
    rw [List.splitOnP_cons_eq_if_modifyHead] at ht
    split at ht
    · rcases List.mem_cons.mp ht with rfl | ht
      · exact List.not_mem_nil
      · exact ih ht
    · next hy =>
      obtain ⟨u, us, hu⟩ := List.exists_cons_of_ne_nil (List.splitOnP_ne_nil (· == a) l)
      rw [hu, List.modifyHead_cons] at ht
      rcases List.mem_cons.mp ht with rfl | ht
      · have hu' := ih (hu ▸ List.mem_cons_self)
        exact fun h => (List.mem_cons.mp h).elim (fun h => hy (beq_iff_eq.mpr h.symm)) hu'
      · exact ih (hu ▸ List.mem_cons_of_mem _ ht)

/-- A string that is one component of a path. -/
structure Name.IsComponent (n : Name) : Prop where
  ne_nil : n ≠ []
  nul : 0 ∉ n
  slash : 47 ∉ n

/-- A token holds no NUL. -/
theorem Path.nul_notMem_of_mem_tokens (p : Path) {t : Name} (ht : t ∈ p.tokens) : 0 ∉ t :=
  fun h0 => p.nul_notMem (mem_of_mem_splitOn (List.mem_of_mem_filter ht) h0)

/-- A token is not empty. -/
theorem Path.ne_nil_of_mem_tokens (p : Path) {t : Name} (ht : t ∈ p.tokens) : t ≠ [] := by
  rintro rfl
  simpa using List.of_mem_filter ht

theorem Path.isComponent_of_mem_tokens (p : Path) {t : Name} (ht : t ∈ p.tokens) :
    Name.IsComponent t where
  ne_nil := p.ne_nil_of_mem_tokens ht
  nul := p.nul_notMem_of_mem_tokens ht
  slash := notMem_of_mem_splitOn (List.mem_of_mem_filter ht)

/-- The path `p/n`. -/
def Path.slash (p : Path) (n : Name) (hn : 0 ∉ n) : Path where
  bytes := p.bytes ++ 47 :: n
  nul_notMem := by simp [p.nul_notMem, hn]

theorem Path.tokens_slash (p : Path) {n : Name} (hn : Name.IsComponent n) :
    (p.slash n hn.nul).tokens = p.tokens ++ [n] := by
  have hself : [n].filter (fun t => !t.isEmpty) = [n] := by simp [hn.ne_nil]
  rw [tokens, slash, List.splitOn_append_cons_self, List.splitOn_eq_singleton hn.slash,
    List.filter_append, hself]
  rfl

theorem Path.split_returns {p : Path} (hp : p.tokens.length ≤ 63) : p.split = .ok p.tokens := by
  rw [Path.split, if_pos (by omega)]

theorem Path.split_ok {p : Path} {q : List Name} (h : p.split = .ok q) : q = p.tokens := by
  rw [split, guard_eq_ok] at h
  simpa using h.2.symm

/-! ## The scan of a directory block -/

theorem findEntry_eq_some {b : Block} {t : Name} {j : ℕ} (h : findEntry b t = some j) :
    j < 32 ∧ (b.dirent j).named t = true ∧ (b.dirent j).valid = true ∧
      ∀ k < j, (b.dirent k).named t = true → (b.dirent k).valid = false := by
  rw [findEntry, List.find?_range_eq_some, List.mem_range, Bool.and_eq_true] at h
  obtain ⟨⟨h1, h2⟩, h3, h4⟩ := h
  exact ⟨h3, h1, h2, fun k hk hn => by simpa [hn] using h4 k hk⟩

theorem findEntry_eq_none {b : Block} {t : Name} (h : findEntry b t = none) :
    ∀ j < 32, (b.dirent j).named t = true → (b.dirent j).valid = false := by
  rw [findEntry, List.find?_range_eq_none] at h
  intro j hj hn
  simpa [hn] using h j hj

/-- The scan sees the entries only. -/
theorem findEntry_congr {b b' : Block} {t : Name}
    (h : ∀ j < 32, ((b'.dirent j).named t && (b'.dirent j).valid) =
      ((b.dirent j).named t && (b.dirent j).valid)) : findEntry b' t = findEntry b t :=
  List.find?_congr fun j hj => h j (List.mem_range.mp hj)

namespace FS

variable {g : Layout}

/-- The block of a directory. -/
def dirBlock (s : FS g) (d : ℕ) : Block := s.disk ((s.inodes d).directAt 0).toNat

/-- Slot `j` of a directory. -/
def entry (s : FS g) (d j : ℕ) : Dirent := (s.dirBlock d).dirent j

/-- The inode that a name leads to in a directory, or `-ENOENT`. -/
def child (s : FS g) (d : ℕ) (n : Name) : ℤ ⊕ ℕ :=
  match findEntry (s.dirBlock d) n with
  | none => .inl (-ENOENT)
  | some j => .inr (s.entry d j).inode.toNat

/-- The directory that a list of names leads to, or the error the walk ends with. -/
def walk (s : FS g) : ℕ → List Name → ℤ ⊕ ℕ
  | d, [] => .inr d
  | d, n :: rest =>
    match findEntry (s.dirBlock d) n with
    | none => .inl (-ENOENT)
    | some j =>
      if (s.entry d j).isDir then s.walk (s.entry d j).inode.toNat rest else .inl (-ENOTDIR)

/-- The inode that a list of names leads to, or the error the walk ends with. -/
def resolve (s : FS g) : ℕ → List Name → ℤ ⊕ ℕ
  | d, [] => .inr d
  | d, n :: rest =>
    match findEntry (s.dirBlock d) n with
    | none => .inl (-ENOENT)
    | some j =>
      if !rest.isEmpty && !(s.entry d j).isDir then .inl (-ENOTDIR)
      else s.resolve (s.entry d j).inode.toNat rest

/-- An inode number or an error, as the `int` the walkers return. -/
def code : ℤ ⊕ ℕ → ℤ := Sum.elim id Nat.cast

@[simp] theorem code_inl (e : ℤ) : code (.inl e) = e := rfl

@[simp] theorem code_inr (i : ℕ) : code (.inr i) = i := rfl

/-- An inode number is not an error. -/
theorem natCast_not_error (i : ℕ) : ¬ ((i : ℤ) = -ENOTDIR ∨ (i : ℤ) = -ENOENT) := by
  rw [ENOTDIR, ENOENT]
  omega

theorem error_neg {e : ℤ} (he : e = -ENOENT ∨ e = -ENOTDIR) : e < 0 := by
  rw [ENOTDIR, ENOENT] at he
  omega

/-- Resolving a path is walking to its parent and looking up its last name. -/
theorem resolve_append (s : FS g) (d : ℕ) (q : List Name) (n : Name) :
    s.resolve d (q ++ [n]) = (s.walk d q).elim .inl fun p => s.child p n := by
  induction q generalizing d with
  | nil =>
    simp only [List.nil_append, resolve, walk, Sum.elim_inr, child]
    cases findEntry (s.dirBlock d) n <;> simp
  | cons m q ih =>
    simp only [List.cons_append, resolve, walk]
    cases findEntry (s.dirBlock d) m with
    | none => rfl
    | some j =>
      by_cases hj : (s.entry d j).isDir = true
      · simp [hj, ih]
      · simp [hj]

/-- A directory that a walk leads to is what its names resolve to. -/
theorem resolve_of_walk {s : FS g} {d p : ℕ} {q : List Name} (h : s.walk d q = .inr p) :
    s.resolve d q = .inr p := by
  induction q generalizing d with
  | nil => exact h
  | cons n q ih =>
    rw [walk] at h
    rw [resolve]
    cases hf : findEntry (s.dirBlock d) n with
    | none =>
      rw [hf] at h
      exact h
    | some j =>
      rw [hf] at h
      dsimp only at h ⊢
      by_cases hj : (s.entry d j).isDir = true
      · rw [if_pos hj] at h
        rw [if_neg (by simp [hj])]
        exact ih h
      · rw [if_neg hj] at h
        exact absurd h (by simp)

/-- A walk fails with one of two codes. -/
theorem walk_error {s : FS g} {d : ℕ} {q : List Name} {e : ℤ} (h : s.walk d q = .inl e) :
    e = -ENOENT ∨ e = -ENOTDIR := by
  induction q generalizing d with
  | nil => simp [walk] at h
  | cons n q ih =>
    rw [walk] at h
    split at h
    · exact Or.inl (Sum.inl.inj h).symm
    · split at h
      · exact ih h
      · exact Or.inr (Sum.inl.inj h).symm

theorem resolve_error {s : FS g} {d : ℕ} {q : List Name} {e : ℤ} (h : s.resolve d q = .inl e) :
    e = -ENOENT ∨ e = -ENOTDIR := by
  rcases List.eq_nil_or_concat q with rfl | ⟨q, n, rfl⟩
  · simp [resolve] at h
  · rw [List.concat_eq_append, resolve_append] at h
    cases hw : s.walk d q with
    | inl e' =>
      rw [hw] at h
      exact Sum.inl.inj h ▸ walk_error hw
    | inr p =>
      rw [hw, Sum.elim_inr, child] at h
      split at h
      · exact Or.inl (Sum.inl.inj h).symm
      · simp at h

theorem child_error {s : FS g} {d : ℕ} {n : Name} {e : ℤ} (h : s.child d n = .inl e) :
    e = -ENOENT ∧ findEntry (s.dirBlock d) n = none := by
  rw [child] at h
  split at h
  · next hf => exact ⟨(Sum.inl.inj h).symm, hf⟩
  · simp at h

theorem child_inode {s : FS g} {d : ℕ} {n : Name} {c : ℕ} (h : s.child d n = .inr c) :
    ∃ j, findEntry (s.dirBlock d) n = some j ∧ (s.entry d j).inode.toNat = c := by
  rw [child] at h
  split at h
  · simp at h
  · next j hf => exact ⟨j, hf, Sum.inr.inj h⟩

/-! ## The loops -/

theorem inode_ok {s : FS g} {i : ℤ} {ino : Inode} (h : s.inode i = .ok ino) :
    0 ≤ i ∧ i.toNat < g.numInodes ∧ ino = s.inodes i.toNat := by
  rw [inode, guard_eq_ok] at h
  exact ⟨h.1.1, h.1.2, by simpa using h.2.symm⟩

theorem readBlock_ok {s : FS g} {p : ℕ} {b : Block} (h : s.readBlock p = .ok b) :
    p < g.nblks ∧ b = s.disk p := by
  rw [readBlock, guard_eq_ok] at h
  exact ⟨h.1, by simpa using h.2.symm⟩

/-- If the loop of `translate_path_to_inum` returns, it returns `resolve`. -/
theorem translateLoop_ok {s : FS g} {i d : ℕ} {q : List Name} {r : ℤ}
    (h : s.translateLoop i d q = .ok r) : r = code (s.resolve d q) := by
  induction q generalizing i d with
  | nil => simpa [translateLoop, resolve] using h.symm
  | cons n q ih =>
    rw [translateLoop, bind_eq_ok] at h
    obtain ⟨temp, htemp, h⟩ := h
    obtain ⟨-, -, rfl⟩ := inode_ok htemp
    rw [bind_eq_ok] at h
    obtain ⟨block, hblock, h⟩ := h
    obtain ⟨-, rfl⟩ := readBlock_ok hblock
    rw [resolve]
    change (match findEntry (s.dirBlock d) n with
      | none => _
      | some j => _) = _ at h
    cases hf : findEntry (s.dirBlock d) n with
    | none =>
      rw [hf] at h
      simpa using h.symm
    | some j =>
      rw [hf] at h
      dsimp only at h
      rw [guard_eq_ok] at h
      obtain ⟨-, h⟩ := h
      dsimp only
      rw [entry, dirBlock]
      by_cases hj : (!q.isEmpty && !((s.disk ((s.inodes d).directAt 0).toNat).dirent j).isDir) = true
      · rw [if_pos hj]
        rw [Int.toNat_natCast, if_pos hj] at h
        simpa using h.symm
      · rw [if_neg hj]
        rw [Int.toNat_natCast, if_neg hj] at h
        exact ih h

/-- If the loop of `get_parent_inum` returns, it returns the walk to the parent. -/
theorem parentLoop_ok {s : FS g} {i d : ℕ} {q : List Name} {r : ℤ}
    (h : s.parentLoop i d q = .ok r) : r = code (s.walk d q.dropLast) := by
  induction q generalizing i d with
  | nil => simpa [parentLoop, walk] using h.symm
  | cons n q ih =>
    cases q with
    | nil =>
      rw [parentLoop, guard_eq_ok] at h
      simpa [walk] using h.2.symm
    | cons m q =>
      rw [parentLoop, bind_eq_ok] at h
      obtain ⟨temp, htemp, h⟩ := h
      obtain ⟨-, -, rfl⟩ := inode_ok htemp
      rw [bind_eq_ok] at h
      obtain ⟨block, hblock, h⟩ := h
      obtain ⟨-, rfl⟩ := readBlock_ok hblock
      rw [List.dropLast_cons_of_ne_nil (List.cons_ne_nil _ _), walk]
      change (match findEntry (s.dirBlock d) n with
        | none => _
        | some j => _) = _ at h
      cases hf : findEntry (s.dirBlock d) n with
      | none =>
        rw [hf] at h
        simpa using h.symm
      | some j =>
        rw [hf] at h
        dsimp only at h ⊢
        rw [entry, dirBlock]
        rw [Int.toNat_natCast] at h
        by_cases hj : ((s.disk ((s.inodes d).directAt 0).toNat).dirent j).isDir = true
        · rw [if_pos hj]
          rw [if_neg (by simp [hj])] at h
          exact ih h
        · rw [if_neg hj]
          rw [if_pos (by simp [hj])] at h
          simpa using h.symm

/-! ## Walks that stay inside the arrays -/

/-- The inode numbers that a walk looks up index the table, and the blocks it reads lie in
the image. -/
def WalkInside (s : FS g) : ℕ → List Name → Prop
  | _, [] => True
  | d, n :: rest => d < g.numInodes ∧ ((s.inodes d).directAt 0).toNat < g.nblks ∧
      ∀ j ∈ findEntry (s.dirBlock d) n, (s.entry d j).isDir = true →
        s.WalkInside (s.entry d j).inode.toNat rest

instance decidableWalkInside (s : FS g) : (d : ℕ) → (q : List Name) → Decidable (s.WalkInside d q)
  | _, [] => inferInstanceAs (Decidable True)
  | d, n :: rest =>
    have (i : ℕ) := decidableWalkInside s i rest
    inferInstanceAs (Decidable (d < g.numInodes ∧ ((s.inodes d).directAt 0).toNat < g.nblks ∧
      ∀ j ∈ findEntry (s.dirBlock d) n, (s.entry d j).isDir = true →
        s.WalkInside (s.entry d j).inode.toNat rest))

theorem WalkInside.dropLast {s : FS g} {d : ℕ} {q : List Name} (h : s.WalkInside d q) :
    s.WalkInside d q.dropLast := by
  induction q generalizing d with
  | nil => exact h
  | cons n q ih =>
    cases q with
    | nil => trivial
    | cons m q =>
      obtain ⟨hd, hb, hrest⟩ := h
      exact ⟨hd, hb, fun j hj hdir => ih (hrest j hj hdir)⟩

theorem inode_eq_ok {s : FS g} {d : ℕ} (h : d < g.numInodes) : s.inode d = .ok (s.inodes d) := by
  rw [inode, if_pos ⟨by omega, by omega⟩, Int.toNat_natCast]

theorem readBlock_dir {s : FS g} {d : ℕ} (h : ((s.inodes d).directAt 0).toNat < g.nblks) :
    s.readBlock ((s.inodes d).directAt 0).toNat = .ok (s.dirBlock d) := by
  rw [readBlock, if_pos h, dirBlock]

theorem WalkInside.translateLoop_returns {s : FS g} {i d : ℕ} {q : List Name}
    (h : s.WalkInside d q) (hq : i + q.length < 64) : Returns (s.translateLoop i d q) := by
  induction q generalizing i d with
  | nil => exact returns_ok _
  | cons n q ih =>
    obtain ⟨hd, hb, hrest⟩ := h
    rw [List.length_cons] at hq
    rw [translateLoop, inode_eq_ok hd, ok_bind, readBlock_dir hb, ok_bind]
    cases hf : findEntry (s.dirBlock d) n with
    | none => exact returns_ok _
    | some j =>
      dsimp only
      rw [if_pos (by omega)]
      split
      · exact returns_ok _
      · next hj =>
        cases q with
        | nil => exact returns_ok _
        | cons m q =>
          have hdir : (s.entry d j).isDir = true := by
            rw [entry]
            simpa using hj
          exact ih (hrest j hf hdir) (by omega)

/-- With 64 names the loop returns too, if the walk does not get to the last. -/
theorem WalkInside.translateLoop_returns_of_walk {s : FS g} {i d : ℕ} {q : List Name}
    (h : s.WalkInside d q) (hq : i + q.length ≤ 64) (hw : ∀ p, s.walk d q.dropLast ≠ .inr p) :
    Returns (s.translateLoop i d q) := by
  induction q generalizing i d with
  | nil => exact returns_ok _
  | cons n q ih =>
    obtain ⟨hd, hb, hrest⟩ := h
    rw [List.length_cons] at hq
    cases q with
    | nil => exact absurd rfl (hw d)
    | cons m q =>
      rw [List.length_cons] at hq
      rw [translateLoop, inode_eq_ok hd, ok_bind, readBlock_dir hb, ok_bind]
      rw [List.dropLast_cons_of_ne_nil (List.cons_ne_nil _ _), walk] at hw
      cases hf : findEntry (s.dirBlock d) n with
      | none => exact returns_ok _
      | some j =>
        rw [hf] at hw
        dsimp only at hw ⊢
        rw [if_pos (by omega)]
        split
        · exact returns_ok _
        · next hj =>
          have hdir : (s.entry d j).isDir = true := by
            rw [entry]
            simpa using hj
          rw [if_pos hdir] at hw
          exact ih (hrest j hf hdir) (by rw [List.length_cons]; omega) hw

theorem WalkInside.parentLoop_returns {s : FS g} {i d : ℕ} {q : List Name}
    (h : s.WalkInside d q) (hq : i + q.length < 64) : Returns (s.parentLoop i d q) := by
  induction q generalizing i d with
  | nil => exact returns_ok _
  | cons n q ih =>
    rw [List.length_cons] at hq
    cases q with
    | nil =>
      rw [parentLoop, if_pos (by omega)]
      exact returns_ok _
    | cons m q =>
      obtain ⟨hd, hb, hrest⟩ := h
      rw [parentLoop, inode_eq_ok hd, ok_bind, readBlock_dir hb, ok_bind]
      cases hf : findEntry (s.dirBlock d) n with
      | none => exact returns_ok _
      | some j =>
        dsimp only
        split
        · exact returns_ok _
        · next hj =>
          have hdir : (s.entry d j).isDir = true := by
            rw [entry]
            simpa using hj
          exact ih (hrest j hf hdir) (by omega)

/-! ## One path -/

theorem translatePathToInum_ok {s : FS g} {p : Path} {r : ℤ}
    (h : s.translatePathToInum p = .ok r) : r = code (s.resolve 1 p.tokens) := by
  rw [translatePathToInum, bind_eq_ok] at h
  obtain ⟨q, hq, h⟩ := h
  rw [Path.split_ok hq] at h
  exact translateLoop_ok h

/-- An inode number returned is what the path leads to. -/
theorem resolve_of_translate {s : FS g} {p : Path} {i : ℕ} (h : s.translatePathToInum p = .ok (i : ℤ)) :
    s.resolve 1 p.tokens = .inr i := by
  have hcode := translatePathToInum_ok h
  cases hr : s.resolve 1 p.tokens with
  | inl e =>
    have := error_neg (resolve_error hr)
    rw [hr, code_inl] at hcode
    omega
  | inr j =>
    rw [hr, code_inr] at hcode
    rw [Int.ofNat.inj hcode]

theorem getParentInum_ok {s : FS g} {p : Path} {r : ℤ} {buf : List UInt8}
    (h : s.getParentInum p = .ok (r, buf)) :
    p.tokens = [] ∧ r = -EINVAL ∨
      ∃ last, p.tokens.getLast? = some last ∧ r = code (s.walk 1 p.tokens.dropLast) ∧
        last.length ≤ 26 ∧ buf = last ++ List.replicate (26 - last.length) 0 := by
  rw [getParentInum, bind_eq_ok] at h
  obtain ⟨q, hq, h⟩ := h
  rw [Path.split_ok hq] at h
  cases hl : p.tokens.getLast? with
  | none =>
    rw [hl] at h
    exact Or.inl ⟨List.getLast?_eq_none_iff.mp hl, by simp_all⟩
  | some last =>
    rw [hl] at h
    dsimp only at h
    rw [guard_eq_ok, bind_eq_ok] at h
    obtain ⟨hlen, inum, hinum, h⟩ := h
    have h' := Except.ok.inj h
    refine Or.inr ⟨last, rfl, ?_, hlen, (congrArg Prod.snd h').symm⟩
    exact (congrArg Prod.fst h').symm.trans (parentLoop_ok hinum)

theorem WalkInside.translatePathToInum_returns {s : FS g} {p : Path} (h : s.WalkInside 1 p.tokens)
    (hp : p.tokens.length ≤ 63) : Returns (s.translatePathToInum p) := by
  rw [translatePathToInum, Path.split_returns hp, ok_bind]
  exact h.translateLoop_returns (by omega)

theorem WalkInside.getParentInum_returns {s : FS g} {p : Path} (h : s.WalkInside 1 p.tokens)
    (hp : p.tokens.length ≤ 63) (hlen : ∀ t ∈ p.tokens, t.length ≤ 26) :
    Returns (s.getParentInum p) := by
  rw [getParentInum, Path.split_returns hp, ok_bind]
  cases hl : p.tokens.getLast? with
  | none => exact returns_ok _
  | some last =>
    dsimp only
    rw [if_pos (hlen last (List.mem_of_mem_getLast? hl))]
    exact (h.parentLoop_returns (by omega)).bind fun _ _ => returns_ok _

/-- `fs_getattr` fails as the walk does, or finds the inode. -/
theorem fsGetattr_ok {s : FS g} {p : Path} {o : ℤ ⊕ Stat} (h : s.fsGetattr p = .ok o) :
    (∃ e, s.resolve 1 p.tokens = .inl e ∧ o = .inl e) ∨
      ∃ i, s.resolve 1 p.tokens = .inr i ∧ o = .inr (fsSetSuperbockAttrs (s.inodes i) i) := by
  rw [fsGetattr, bind_eq_ok] at h
  obtain ⟨inum, hinum, h⟩ := h
  obtain rfl := translatePathToInum_ok hinum
  cases hr : s.resolve 1 p.tokens with
  | inl e =>
    rw [hr, code_inl, if_pos (resolve_error hr)] at h
    exact Or.inl ⟨e, rfl, (Except.ok.inj h).symm⟩
  | inr i =>
    rw [hr, code_inr, if_neg (fun hi => natCast_not_error i hi.symm), bind_eq_ok] at h
    obtain ⟨ino, hino, h⟩ := h
    obtain ⟨-, -, rfl⟩ := inode_ok hino
    exact Or.inr ⟨i, rfl, (Except.ok.inj h).symm⟩

/-- **The two walkers on one path.**  Either it has no components, or the walk to its
parent fails and both report the error, or the parent is found: then one returns it
with the last name and the other the child of that name. -/
theorem walkers {s : FS g} {p : Path} {c r : ℤ} {buf : List UInt8}
    (hc : s.translatePathToInum p = .ok c) (hr : s.getParentInum p = .ok (r, buf)) :
    (p.tokens = [] ∧ c = 1 ∧ r = -EINVAL) ∨
    (∃ e, (e = -ENOENT ∨ e = -ENOTDIR) ∧ s.walk 1 p.tokens.dropLast = .inl e ∧ p.tokens ≠ [] ∧
      c = e ∧ r = e) ∨
    (∃ d last, s.walk 1 p.tokens.dropLast = .inr d ∧ p.tokens.getLast? = some last ∧
      last ∈ p.tokens ∧ r = d ∧ c = code (s.child d last) ∧ last.length ≤ 26 ∧
      buf = last ++ List.replicate (26 - last.length) 0) := by
  have hc' := translatePathToInum_ok hc
  rcases getParentInum_ok hr with ⟨hnil, hr'⟩ | ⟨last, hlast, hr', hlen, hbuf⟩
  · rw [hnil] at hc'
    exact Or.inl ⟨hnil, hc', hr'⟩
  · have hmem := List.mem_of_mem_getLast? hlast
    have hsplit := List.dropLast_append_getLast? last hlast
    rw [← hsplit, resolve_append] at hc'
    cases hw : s.walk 1 p.tokens.dropLast with
    | inl e =>
      rw [hw] at hc' hr'
      exact Or.inr (Or.inl ⟨e, walk_error hw, rfl, List.ne_nil_of_mem hmem, hc', hr'⟩)
    | inr d =>
      rw [hw] at hc' hr'
      exact Or.inr (Or.inr ⟨d, last, rfl, hlast, hmem, hr', hc', hlen, hbuf⟩)

end FS

/-- The buffer of `get_parent_inum` holds the last name, if it has room for its NUL. -/
theorem bufferString_ok {n t : Name} {k : ℕ} (hn : 0 ∉ n)
    (h : bufferString (n ++ List.replicate k 0) = .ok t) : t = n ∧ 0 < k := by
  rw [bufferString, guard_eq_ok] at h
  have htake : (n ++ List.replicate k 0).takeWhile (· != 0) = n := by
    rw [List.takeWhile_append_of_pos]
    · cases k <;> simp [List.replicate_succ]
    · intro x hx
      simp only [bne_iff_ne]
      rintro rfl
      exact hn hx
  rw [htake] at h
  refine ⟨(Except.ok.inj h.2).symm, ?_⟩
  have hlt := h.1
  rw [List.length_append, List.length_replicate] at hlt
  omega

end Fsx600
