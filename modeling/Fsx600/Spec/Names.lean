import Fsx600.Spec.WellFormed
import Mathlib.Data.List.GetD
import Mathlib.Data.List.TakeWhile

/-!
# Names in directory entries

A name field is 28 bytes that are read as a C string, `cname`; if its last byte is NUL,
`strcmp` compares with that string (`named_iff_cname`).  `Dirent.Holds d t` says that the
field is the name `t` and zeros to its end, which is how `fs_mknod` leaves it.

`fs_rename` copies the new name without its NUL, so what it stores is the new name
followed by what the old one had past its length: `overwrite`.
-/

namespace Fsx600

/-- A name that fits where the source puts it: 1 to 25 bytes, none of them NUL. -/
structure Name.Fits (t : Name) : Prop where
  ne_nil : t ≠ []
  nul : 0 ∉ t
  length_le : t.length ≤ 25

/-- What is in a name buffer after `strncpy(buf, new, strlen(new))` over `old`. -/
def overwrite (old new : Name) : Name := new ++ old.drop new.length

theorem overwrite_of_le {old new : Name} (h : old.length ≤ new.length) : overwrite old new = new := by
  rw [overwrite, List.drop_of_length_le h, List.append_nil]

theorem length_overwrite (old new : Name) :
    (overwrite old new).length = max old.length new.length := by
  rw [overwrite, List.length_append, List.length_drop]
  omega

theorem getD_overwrite (old new : Name) (i : ℕ) :
    (overwrite old new).getD i 0 = if i < new.length then new.getD i 0 else old.getD i 0 := by
  rw [overwrite, List.getD_eq_getElem?_getD, List.getD_eq_getElem?_getD, List.getD_eq_getElem?_getD]
  split
  · next h => rw [List.getElem?_append_left h]
  · next h =>
    rw [List.getElem?_append_right (by omega), List.getElem?_drop, Nat.add_sub_cancel' (by omega)]

/-- What a rename stores is a name again. -/
theorem Name.Fits.overwrite {old new : Name} (ho : Name.Fits old) (hn : Name.Fits new) :
    Name.Fits (overwrite old new) where
  ne_nil := by
    intro h
    have hmax := length_overwrite old new
    rw [h, List.length_nil] at hmax
    exact ho.ne_nil (List.eq_nil_of_length_eq_zero (by omega))
  nul := by
    intro h
    rcases List.mem_append.mp h with h | h
    · exact hn.nul h
    · exact ho.nul (List.mem_of_mem_drop h)
  length_le := by
    have := ho.length_le
    have := hn.length_le
    rw [length_overwrite]
    omega

/-- A component of a proper path fits. -/
theorem Path.fits_of_mem {p : Path} {t : Name} (ht : t ∈ p.tokens) (hlen : t.length ≤ 25) :
    Name.Fits t :=
  ⟨p.ne_nil_of_mem_tokens ht, p.nul_notMem_of_mem_tokens ht, hlen⟩

namespace Dirent

variable {d : Dirent} {t u : Name}

/-- The string in the name field: its bytes up to the first NUL. -/
def cname (d : Dirent) : Name := ((List.range 28).map d.nameByte).takeWhile (· != 0)

/-- The name field is `t`, and zeros to its end. -/
def Holds (d : Dirent) (t : Name) : Prop := ∀ i < 28, d.nameByte i = t.getD i 0

theorem Holds.congr {e : Dirent} (h : d.Holds t) (hn : e.name = d.name) : e.Holds t := by
  intro i hi
  rw [nameByte, hn]
  exact h i hi

theorem cmpFrom_iff {i : ℕ} : d.cmpFrom i u = true ↔
    i + u.length < 28 ∧ ∀ k, k ≤ u.length → d.nameByte (i + k) = u.getD k 0 := by
  induction u generalizing i with
  | nil =>
    simp only [cmpFrom, Bool.and_eq_true, decide_eq_true_eq, beq_iff_eq, List.length_nil]
    constructor
    · rintro ⟨hi, h0⟩
      refine ⟨hi, fun k hk => ?_⟩
      obtain rfl : k = 0 := by omega
      exact h0
    · rintro ⟨hi, h0⟩
      exact ⟨hi, h0 0 le_rfl⟩
  | cons c u ih =>
    simp only [cmpFrom, Bool.and_eq_true, beq_iff_eq, ih, List.length_cons]
    constructor
    · rintro ⟨hc, hlen, h⟩
      refine ⟨by omega, fun k hk => ?_⟩
      cases k with
      | zero => exact hc
      | succ k =>
        rw [List.getD_cons_succ, ← h k (by omega)]
        congr 1
        omega
    · rintro ⟨hlen, h⟩
      refine ⟨h 0 (by omega), by omega, fun k hk => ?_⟩
      have := h (k + 1) (by omega)
      rw [List.getD_cons_succ] at this
      rw [← this]
      congr 1
      omega

/-- A field that holds a string and then a NUL. -/
theorem cname_eq_of_bytes (hlt : u.length < 28) (hu : 0 ∉ u)
    (h : ∀ k ≤ u.length, d.nameByte k = u.getD k 0) : d.cname = u := by
  have htake : ((List.range 28).map d.nameByte).take u.length = u := by
    refine List.ext_getElem (by simp; omega) fun k _ hk => ?_
    rw [List.getElem_take, List.getElem_map, List.getElem_range, h k hk.le,
      List.getD_eq_getElem _ _ hk]
  have hdrop : ((List.range 28).map d.nameByte).drop u.length =
      0 :: ((List.range 28).map d.nameByte).drop (u.length + 1) := by
    rw [List.drop_eq_getElem_cons (by simpa using hlt), List.getElem_map, List.getElem_range,
      h _ le_rfl, List.getD_eq_default _ _ le_rfl]
  rw [cname, ← List.take_append_drop u.length ((List.range 28).map d.nameByte), htake, hdrop,
    List.takeWhile_append_of_pos]
  · simp
  · intro x hx
    simp only [bne_iff_ne]
    rintro rfl
    exact hu hx

/-- A field with a NUL in it holds the bytes of its string and the NUL that ends it. -/
theorem bytes_of_cname (h : d.nameByte 27 = 0) :
    d.cname.length < 28 ∧ ∀ k ≤ d.cname.length, d.nameByte k = d.cname.getD k 0 := by
  have hne : ((List.range 28).map d.nameByte).dropWhile (· != 0) ≠ [] := by
    intro hnil
    have hall := List.dropWhile_eq_nil_iff.mp hnil (d.nameByte 27)
      (List.mem_map_of_mem (List.mem_range.mpr (by omega)))
    rw [h] at hall
    exact absurd hall (by decide)
  obtain ⟨x, rest, hx⟩ := List.exists_cons_of_ne_nil hne
  have hsplit : (List.range 28).map d.nameByte = d.cname ++ x :: rest := by
    rw [cname, ← hx, List.takeWhile_append_dropWhile]
  have hx0 : x = 0 := by
    have hhead := List.head_dropWhile_not (· != 0) hne
    simpa [hx] using hhead
  have hlen := congrArg List.length hsplit
  rw [List.length_map, List.length_range, List.length_append, List.length_cons] at hlen
  refine ⟨by omega, fun k hk => ?_⟩
  have hbyte : ((List.range 28).map d.nameByte).getD k 0 = d.nameByte k := by
    rw [List.getD_eq_getElem _ _ (by rw [List.length_map, List.length_range]; omega),
      List.getElem_map, List.getElem_range]
  rw [← hbyte, hsplit]
  rcases hk.lt_or_eq with hk | rfl
  · rw [List.getD_append _ _ _ _ hk]
  · rw [List.getD_append_right _ _ _ _ le_rfl, Nat.sub_self, List.getD_cons_zero, hx0,
      List.getD_eq_default _ _ le_rfl]

/-- `strcmp` on a field with a NUL in it compares with its string. -/
theorem named_iff_cname (h : d.nameByte 27 = 0) (hu : 0 ∉ u) : d.named u = true ↔ d.cname = u := by
  rw [named, cmpFrom_iff]
  constructor
  · rintro ⟨hlt, hbytes⟩
    refine cname_eq_of_bytes (by omega) hu fun k hk => ?_
    rw [← hbytes k hk, Nat.zero_add]
  · rintro rfl
    obtain ⟨hlt, hbytes⟩ := bytes_of_cname h
    refine ⟨by omega, fun k hk => ?_⟩
    rw [Nat.zero_add, hbytes k hk]

/-- A field that holds a short name ends in NUL. -/
theorem Holds.nul (h : d.Holds t) (hlen : t.length < 28) : d.nameByte 27 = 0 := by
  rw [h 27 (by omega), List.getD_eq_default _ _ (by omega)]

theorem cname_of_holds (h : d.Holds t) (ht : 0 ∉ t) (hlen : t.length < 28) : d.cname = t :=
  cname_eq_of_bytes hlen ht fun k hk => h k (by omega)

/-- `strcmp` on a field that holds `t` compares with `t`. -/
theorem named_iff (h : d.Holds t) (ht : 0 ∉ t) (hlen : t.length < 28) (hu : 0 ∉ u) :
    d.named u = true ↔ u = t := by
  rw [named_iff_cname (h.nul hlen) hu, cname_of_holds h ht hlen, eq_comm]

/-- `strncpy` over a field leaves `overwrite` in it. -/
theorem Holds.copyName (h : d.Holds t) (u : Name) : (d.copyName u).Holds (overwrite t u) := by
  intro i hi
  rw [getD_overwrite, nameByte, dif_pos hi]
  simp only [Dirent.copyName]
  split
  · next hu =>
    rw [List.getD_eq_getElem _ _ hu]
    rfl
  · rw [← h i hi, nameByte, dif_pos hi]

theorem zero_holds : zero.Holds [] := by
  intro i hi
  rw [nameByte, dif_pos hi]
  rfl

/-- A copied name leaves the rest of the field as it is. -/
theorem nameByte_copyName_of_le (d : Dirent) {t : Name} {i : ℕ} (h : t.length ≤ i) :
    (d.copyName t).nameByte i = d.nameByte i := by
  unfold nameByte
  split
  · exact dif_neg (not_lt.mpr h)
  · rfl

/-- There is a NUL in the field. -/
def Terminated (d : Dirent) : Prop := ∃ k < 28, d.nameByte k = 0

/-- The string in a field that a name was copied to begins with it. -/
theorem prefix_cname_copyName (d : Dirent) (hlen : t.length ≤ 28) (ht : 0 ∉ t) : t <+: (d.copyName t).cname := by
  have htake : ((List.range 28).map (d.copyName t).nameByte).take t.length = t := by
    refine List.ext_getElem (by simp; omega) fun k _ hk => ?_
    rw [List.getElem_take, List.getElem_map, List.getElem_range, nameByte, dif_pos (by omega)]
    exact dif_pos hk
  rw [cname, ← List.take_append_drop t.length ((List.range 28).map (d.copyName t).nameByte), htake,
    List.takeWhile_append_of_pos]
  · exact List.prefix_append ..
  · intro x hx
    simp only [bne_iff_ne]
    rintro rfl
    exact ht hx

@[simp] theorem copyName_valid (d : Dirent) (t : Name) : (d.copyName t).valid = d.valid := rfl

@[simp] theorem copyName_isDir (d : Dirent) (t : Name) : (d.copyName t).isDir = d.isDir := rfl

@[simp] theorem copyName_inode (d : Dirent) (t : Name) : (d.copyName t).inode = d.inode := rfl

end Dirent

end Fsx600
