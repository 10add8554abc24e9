import Fsx600.Properties.Objects
import Fsx600.Properties.Listing
import Fsx600.Properties.ReadInside

/-!
# What the readers show of a store

A state shows a store if `fs_getattr`, `fs_readdir` and `fs_read` say of every path what the store
says: the error of the lookup, or the mode and the length; the names in a directory, each once and
with its attributes; and the bytes of a file, where the read ends before the file does.

A state that backs a store shows it, and so does whatever a mount makes of its image; so a run of
calls, with remounts anywhere between them, returns what the store returns, and the readers show
the store that is left (`store_of_events`).
-/

namespace Fsx600

open Checked Function Mkfs

/-- The attributes are those of the object; the length is asked of files only. -/
def Object.Shown (o : Object) (st : FS.Stat) : Prop :=
  st.mode = o.mode ∧ (o.isDir = false → st.size = o.bytes.length)

/-- The string of a field that holds a name. -/
theorem Dirent.Holds.cname_eq {d : Dirent} {u : Name} (h : d.Holds u) (hu : Name.Fits u) : d.cname = u := by
  have := hu.length_le
  exact Dirent.cname_of_holds h hu.nul (by omega)

namespace FS

variable {g : Layout} {s t : FS g} {path : Path} {i len offset x : ℕ} {N : NameTree} {M : Store}
  {o : Object}

/-- The readers show the store. -/
structure Shows (s : FS g) (M : Store) : Prop where
  missing : ∀ path, path.tokens.length ≤ 63 → M path.tokens = none →
    s.fsGetattr path = .ok (.inl (M.error path.tokens)) ∧ s.fsReaddir path = .ok (M.error path.tokens, []) ∧
      ∀ buf len offset, s.fsRead path buf len offset = .ok (M.error path.tokens, buf)
  attributes : ∀ path o, path.tokens.length ≤ 63 → M path.tokens = some o →
    ∃ st, s.fsGetattr path = .ok (.inr st) ∧ o.Shown st
  entries : ∀ path o, path.tokens.length ≤ 63 → M path.tokens = some o → o.isDir = true →
    ∃ filled, s.fsReaddir path = .ok (0, filled) ∧ (filled.map Prod.fst).Nodup ∧
      (∀ t, t ∈ filled.map Prod.fst ↔ t ∈ M.children path.tokens) ∧
      ∀ t st, (t, st) ∈ filled → ∃ o', M (path.tokens ++ [t]) = some o' ∧ o'.Shown st
  notDir : ∀ path o, path.tokens.length ≤ 63 → M path.tokens = some o → o.isDir = false →
    s.fsReaddir path = .ok (-ENOTDIR, [])
  isDir : ∀ path o buf len offset, path.tokens.length ≤ 63 → M path.tokens = some o → o.isDir = true →
    offset / 1024 < 65798 → s.fsRead path buf len offset = .ok (-EISDIR, buf)
  bytes : ∀ path o buf len offset, path.tokens.length ≤ 63 → M path.tokens = some o → o.isDir = false →
    offset + len < o.bytes.length → ∃ buf', s.fsRead path buf len offset = .ok (len, buf') ∧
      ∀ x < len, o.bytes[offset + x]? = some (buf' x)

/-! ## A state that backs a store shows it -/

/-- The blocks of an exact file are all blocks of the image. -/
theorem Exact.mapped_of_lt (hwf : Wf s) (hi : s.inodeMap i = true) (hf : s.isDir i = false) (he : s.Exact i)
    (hx : ((1024 * x : ℕ) : ℤ) < (s.inodes i).size.toInt) : s.Mapped i x := by
  exact ⟨(he.mapped x).2 hx, fun σ _ => hwf.pointer_lt hi hf σ⟩

section Readers

variable (h : Backs s N M)
include h

/-- The inode of a path. -/
theorem Backs.exists_resolve (ho : M path.tokens = some o) :
    ∃ i, s.resolve 1 path.tokens = .inr i ∧ o = s.object i := by
  cases hr : s.resolve 1 path.tokens with
  | inl e =>
    rw [h.of_resolve_error hr] at ho
    exact absurd ho (by simp)
  | inr i =>
    rw [h.of_resolve hr] at ho
    exact ⟨i, rfl, (Option.some.inj ho).symm⟩

theorem Backs.fsGetattr_missing (hlen : path.tokens.length ≤ 63) (ho : M path.tokens = none) :
    s.fsGetattr path = .ok (.inl (M.error path.tokens)) := by
  cases hr : s.resolve 1 path.tokens with
  | inl e =>
    rw [h.error_eq hr]
    exact h.indexed.fsGetattr_of_error hlen hr
  | inr i =>
    rw [h.of_resolve hr] at ho
    exact absurd ho (by simp)

theorem Backs.shown (hi : s.inodeMap i = true) : (s.object i).Shown (fsSetSuperbockAttrs (s.inodes i) i) := by
  refine ⟨rfl, fun hf => ?_⟩
  rw [length_bytes hf, Int.toNat_of_nonneg (h.exact i hi hf).nonneg]
  rfl

theorem Backs.entries (hlen : path.tokens.length ≤ 63) (ho : M path.tokens = some o) (hdir : o.isDir = true) :
    ∃ filled, s.fsReaddir path = .ok (0, filled) ∧ (filled.map Prod.fst).Nodup ∧
      (∀ t, t ∈ filled.map Prod.fst ↔ t ∈ M.children path.tokens) ∧
      ∀ t st, (t, st) ∈ filled → ∃ o', M (path.tokens ++ [t]) = some o' ∧ o'.Shown st := by
  obtain ⟨d, hr, rfl⟩ := h.exists_resolve ho
  have hd : s.AllocDir d := ⟨h.alloc_of_resolve hr, hdir⟩
  have hpath := (h.named.resolve_iff h.toWf fun _ ht => path.nul_notMem_of_mem_tokens ht).1 hr
  have hslots : ∀ {j}, j ∈ s.listedSlots d → s.Edge d j (s.entry d j).inode.toNat := fun hj =>
    ⟨hd, (mem_listedSlots.1 hj).1, (mem_listedSlots.1 hj).2, rfl⟩
  have hnames : ∀ {j}, j ∈ s.listedSlots d →
      s.NameEdge d (s.entry d j).cname (s.entry d j).inode.toNat := fun hj => by
    obtain ⟨t, ht, hh⟩ := h.named.holds (hslots hj)
    rw [hh.cname_eq ht]
    exact ⟨_, hslots hj, ht, hh⟩
  refine ⟨_, h.fsReaddir_eq hlen hr hdir, ?_, fun t => ?_, fun t st hmem => ?_⟩
  · rw [List.map_map]
    refine List.Nodup.map_on (fun j hj k hk heq => ?_) (List.nodup_range.filter _)
    exact h.named.namesUnique d hd j (hslots hj).2.1 k (hslots hk).2.1 (hslots hj).2.2.1 (hslots hk).2.2.1 heq
  · rw [List.map_map, List.mem_map]
    show _ ↔ (M (path.tokens ++ [t])).isSome = true
    rw [h.isSome_iff]
    constructor
    · rintro ⟨j, hj, rfl⟩
      exact ⟨_, hpath.snoc (hnames hj)⟩
    · rintro ⟨x, hx⟩
      obtain ⟨d', hd', j, he, ht, hh⟩ := LabelledTree.path_snoc_iff.1 hx
      obtain rfl := h.tree.path_functional hd' hpath
      exact ⟨j, mem_listedSlots.2 ⟨he.2.1, he.2.2.1⟩, hh.cname_eq ht⟩
  · obtain ⟨j, hj, hfill⟩ := List.mem_map.1 hmem
    obtain ⟨rfl, rfl⟩ := Prod.mk.inj hfill
    refine ⟨_, h.of_path (hpath.snoc (hnames hj)), h.shown ?_⟩
    exact (h.edge_child (hslots hj)).1

end Readers

/-- **A state that backs a store** shows it. -/
theorem Backs.shows (h : Backs s N M) : s.Shows M where
  missing path hlen ho := by
    have hget := h.fsGetattr_missing hlen ho
    refine ⟨hget, ?_, fun buf len offset => ?_⟩
    · rw [fsReaddir, hget]
      rfl
    · rw [fsRead, hget]
      rfl
  attributes path o hlen ho := by
    obtain ⟨i, hr, rfl⟩ := h.exists_resolve ho
    exact ⟨_, h.finds hlen hr, h.shown (h.alloc_of_resolve hr)⟩
  entries path o hlen ho hdir := h.entries hlen ho hdir
  notDir path o hlen ho hfile := by
    obtain ⟨i, hr, rfl⟩ := h.exists_resolve ho
    have hfinds := h.finds hlen hr
    rw [fsReaddir, hfinds, ok_bind]
    dsimp only [fsSetSuperbockAttrs]
    rw [hfinds.inode_eq, ok_bind]
    exact if_pos (by rw [← isDir, ← isDir_object, hfile]; rfl)
  isDir path o buf len offset hlen ho hdir hlt := by
    obtain ⟨i, hr, rfl⟩ := h.exists_resolve ho
    have hfinds := h.finds hlen hr
    have hx : readIndex offset = (offset / 1024 : ℕ) := readIndex_of_lt (by omega)
    rw [fsRead, hfinds, ok_bind]
    dsimp only [fsSetSuperbockAttrs]
    rw [hx, if_neg (by omega), hfinds.inode_eq, ok_bind]
    exact if_pos hdir
  bytes path o buf len offset hlen ho hfile hlt := by
    obtain ⟨i, hr, rfl⟩ := h.exists_resolve ho
    have halloc := h.alloc_of_resolve hr
    have hexact := h.exact i halloc hfile
    have hnonneg := hexact.nonneg
    rw [length_bytes hfile] at hlt
    have hend : ((offset + len : ℕ) : ℤ) < (s.inodes i).size.toInt := by omega
    obtain ⟨buf', hread, hbytes⟩ := fsRead_inside (h.finds hlen hr) hfile
      (fun x hx => hexact.mapped_of_lt h.toWf halloc hfile hx) hend buf
    refine ⟨buf', hread, fun x hx => ?_⟩
    rw [hexact.getElem?_bytes hfile (by omega)]
    exact hbytes x hx

/-- What the readers show is the same for states that are alike. -/
theorem Alike.shows (h : Alike s t) (hs : s.Shows M) : t.Shows M where
  missing path hlen ho := by
    simp only [h.fsGetattr, h.fsReaddir, h.fsRead]
    exact hs.missing path hlen ho
  attributes path o hlen ho := by
    rw [h.fsGetattr]
    exact hs.attributes path o hlen ho
  entries path o hlen ho hdir := by
    rw [h.fsReaddir]
    exact hs.entries path o hlen ho hdir
  notDir path o hlen ho hfile := by
    rw [h.fsReaddir]
    exact hs.notDir path o hlen ho hfile
  isDir path o buf len offset hlen ho hdir hlt := by
    rw [h.fsRead]
    exact hs.isDir path o buf len offset hlen ho hdir hlt
  bytes path o buf len offset hlen ho hfile hlt := by
    rw [h.fsRead]
    exact hs.bytes path o buf len offset hlen ho hfile hlt

/-! ## Runs with remounts -/

/-- **The file system is a store of objects.**  Calls within the limits, made on a new image of
`mkfs-x6` with remounts anywhere between them, all return, and they return what the store
returns that starts with the root alone; and what the readers show in the end is the store that
is left. -/
theorem store_of_events {n : ℕ} (h : Formattable n) (hino : 64 ≤ (layout h).numInodes) (t : UInt32)
    (events : List Event) (hfit : (fresh h t).AllAdmitted (Event.calls events)) :
    ∃ v : FS (layout h), Volume.run ⟨_, fresh h t⟩ events =
        .ok ((Store.root.execAll ((Event.calls events).map Prod.snd)).1, ⟨_, v⟩) ∧
      v.Shows (Store.root.execAll ((Event.calls events).map Prod.snd)).2 := by
  obtain ⟨u, hu, N, hback⟩ := (backs_fresh h t hino).run hfit
  have hwrites := AllSafe.writesData (indexed_fresh h t) hfit.allSafe
  have hmatches := matches_run events (synced_fresh h t) (describes h t) (Alike.refl (fresh h t)) hwrites
  obtain ⟨⟨codes, w⟩, hw, hcodes, v, hv, hall⟩ := hmatches.of_ok hu
  dsimp only at hcodes hv
  subst hcodes hv
  exact ⟨v, hw, hall.shows hback.shows⟩

/-- The path `/a/c`. -/
def pathAC : Path := ⟨[47, 97, 47, 99], by decide⟩

/-- Every operation once, with remounts between them; three of the calls fail. -/
def storeEvents : List Event :=
  [.call ⟨1000, 1000, 0⟩ (.mkdir pathA 0x1ED), .remount, .call ⟨1000, 1000, 1⟩ (.mknod pathAB 0x81A4),
    .call ⟨1000, 1000, 2⟩ (.write pathAB (fun _ => 7) 2000 0), .remount,
    .call ⟨1000, 1000, 3⟩ (.rename pathAB pathAC), .call ⟨1000, 1000, 4⟩ (.mkdir pathA 0x1ED),
    .call ⟨1000, 1000, 5⟩ (.chmod pathAC 0x180), .call ⟨1000, 1000, 6⟩ (.utime pathAC 9),
    .call ⟨1000, 1000, 7⟩ (.unlink pathAB), .remount, .call ⟨1000, 1000, 8⟩ (.truncate pathAC 0),
    .call ⟨1000, 1000, 9⟩ (.rmdir pathA), .call ⟨1000, 1000, 10⟩ (.unlink pathAC),
    .call ⟨1000, 1000, 11⟩ (.rmdir pathA)]

theorem store_of_storeEvents : ∃ v : FS (layout formattable_256),
    Volume.run ⟨_, fresh formattable_256 0⟩ storeEvents =
      .ok ([0, 0, 2000, 0, -EEXIST, 0, 0, -ENOENT, 0, -ENOTEMPTY, 0, 0], ⟨_, v⟩) ∧
        v.Shows (Store.root.execAll ((Event.calls storeEvents).map Prod.snd)).2 := by
  have hcodes : ((fresh formattable_256 0).runCalls (Event.calls storeEvents)).map Prod.fst =
      .ok [0, 0, 2000, 0, -EEXIST, 0, 0, -ENOENT, 0, -ENOTEMPTY, 0, 0] := by
    decide +kernel
  have hfit : (fresh formattable_256 0).AllAdmitted (Event.calls storeEvents) := by
    decide +kernel
  obtain ⟨u, hu, -⟩ := (backs_fresh formattable_256 0 (by decide)).run hfit
  rw [hu] at hcodes
  obtain ⟨v, hv, hshows⟩ := store_of_events formattable_256 (by decide) 0 storeEvents hfit
  exact ⟨v, by rw [hv, Except.ok.inj hcodes], hshows⟩

end FS

end Fsx600
