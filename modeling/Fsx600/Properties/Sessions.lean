import Fsx600.Spec.DiskFull
import Fsx600.Properties.Accepting
import Fsx600.Properties.Copying

/-!
# Sessions

Whatever a script says, all that the command line does to the file system is a run of calls of
`fs_ops`: one call for most commands, none for those that print, and for `put` one of `mknod` and
one of `write` for every piece, up to the first that falls short.

Of these calls the ones that are not safe in any state are known: `chmod` with a mode that names
another type, `truncate` of a file that has blocks of pointers, and writes that take a level-1
block.  A session that stays clear of them (`AllCareful`) is a run of safe calls (`cmdloop_safe`).
-/

namespace Fsx600

open Checked Function Mkfs

namespace FS

variable {g : Layout} {s t u : FS g} {c : Context} {a : Call} {path : Path} {i n : ℕ} {r : ℤ}

/-! ## Safe runs -/

theorem AllMeet.append {guard : FS g → Call → Prop} {calls more : List (Context × Call)} {codes : List ℤ}
    (h : s.AllMeet guard calls) (hrun : s.runCalls calls = .ok (codes, t)) (h' : t.AllMeet guard more) :
    s.AllMeet guard (calls ++ more) := by
  induction calls generalizing s codes with
  | nil =>
    obtain ⟨-, rfl⟩ := Prod.mk.inj (Except.ok.inj hrun)
    exact h'
  | cons x rest ih =>
    obtain ⟨c, a⟩ := x
    obtain ⟨r, u, codes', hu, ht, -⟩ := runCalls_cons hrun
    refine ⟨h.1, fun r' u' hu' => ?_⟩
    obtain ⟨-, rfl⟩ := Prod.mk.inj (Except.ok.inj (hu.symm.trans hu'))
    exact ih (h.2 r u hu) ht

theorem runCalls_append {calls more : List (Context × Call)} {codes codes' : List ℤ}
    (h : s.runCalls calls = .ok (codes, t)) (h' : t.runCalls more = .ok (codes', u)) :
    s.runCalls (calls ++ more) = .ok (codes ++ codes', u) := by
  induction calls generalizing s codes with
  | nil =>
    obtain ⟨rfl, rfl⟩ := Prod.mk.inj (Except.ok.inj h)
    exact h'
  | cons x rest ih =>
    obtain ⟨c, a⟩ := x
    obtain ⟨r, v, tail, hv, ht, rfl⟩ := runCalls_cons h
    rw [List.cons_append, runCalls, hv, ok_bind]
    dsimp only
    rw [ih ht]
    rfl

/-- Safe calls lead from one state to another. -/
def SafeRun (s t : FS g) : Prop :=
  ∃ calls codes, s.AllSafe calls ∧ s.runCalls calls = .ok (codes, t)

theorem SafeRun.refl (s : FS g) : SafeRun s s := ⟨[], [], trivial, rfl⟩

theorem SafeRun.trans (h : SafeRun s t) (h' : SafeRun t u) : SafeRun s u := by
  obtain ⟨calls, codes, hsafe, hrun⟩ := h
  obtain ⟨more, codes', hsafe', hrun'⟩ := h'
  exact ⟨_, _, AllMeet.append hsafe hrun hsafe', runCalls_append hrun hrun'⟩

theorem SafeRun.call (hsafe : s.Safe a) (hr : s.exec c a = .ok (r, t)) : SafeRun s t := by
  refine ⟨[(c, a)], [r], ⟨hsafe, fun _ _ _ => trivial⟩, ?_⟩
  rw [runCalls, hr, ok_bind]
  rfl

theorem SafeRun.indexed (h : SafeRun s t) (hs : Indexed s) : Indexed t := by
  obtain ⟨calls, codes, hsafe, hrun⟩ := h
  exact AllMeet.invariant (fun hs hg hr => (hs.safeCall hg hr).1) hs hsafe hrun

/-! ## The writes of `put` -/

section Write

variable {D : ℕ → UInt8} {d : Chunk} (h : Written path i D n s t) (hlen : 0 < d.len)
  (hle : n + d.len ≤ 262 * 1024)
include h hlen hle

/-- They take no level-1 block. -/
theorem Written.tableSafe : t.TableSafe i n d.len :=
  (tableSafe_iff (by omega)).2 (h.contents.needs hlen hle).2

/-- A write at the end of a new file writes all, or fails. -/
theorem Written.write_or_fail (hbuf : ∀ y < d.len, d.buf y = D (n + y))
    (hu : t.fsWrite c path d.buf d.len n = .ok (r, u)) :
    r = d.len ∧ Written path i D (n + d.len) s u ∨ r < 0 := by
  by_cases hfree : fileBlocks (n + d.len) ≤ s.freeCount
  · exact Or.inl (h.write_of_ok hlen hle hbuf hfree hu)
  right
  have hi := h.wf.alloc_of_resolve h.resolve
  have hlt : n / 1024 < 65798 := by omega
  have hsize : (t.inodes i).size.toInt = n := by
    rw [h.contents.size, Int32.toInt_ofNat_of_lt (by omega)]
  rcases writes_of_fsWrite h.wf.blocks hi h.resolve h.file hu fun _ => h.tableSafe hlen hle with
    ⟨hbad, -⟩ | ⟨-, f, rfl, hwrites, -⟩
  · omega
  have hv := h.wf.blocks.ready_writeVars hi h.file d.buf d.len n
  have hfirst : firstSlot n = n / 1024 := if_pos hlt
  have hoffset : (t.writeVars i d.buf d.len n).offset = n := if_pos hlt
  rw [hfirst] at hwrites
  have hiff := hwrites.total_nonneg_iff hv (Nat.sub_add_cancel hlt.le)
  rw [hoffset] at hiff
  refine not_le.1 (mt hiff.1 fun hsupplied => hfree ?_)
  have htake := h.toTake (Nat.le_add_right n d.len)
  have hcount := h.freeCount
  have hneeds := (h.contents.needs hlen hle).1
  have hroom : (t.needs i (65798 - n / 1024) (n / 1024) n d.len).length ≤ t.freeCount := hsupplied
  omega

end Write

/-- **The loop of `put`** on a new file makes safe calls, also if it falls short. -/
theorem Written.putLoop_safe {D : ℕ → UInt8} {w : ℕ → Context} {buf buf' : ℕ → UInt8} {val val' : ℤ}
    {chunks : List (List UInt8)} (h : Written path i D n s t) (hne : ∀ c ∈ chunks, c ≠ [])
    (hle : n + chunks.flatten.length ≤ 262 * 1024)
    (hD : ∀ y < chunks.flatten.length, chunks.flatten[y]? = some (D (n + y)))
    (hloop : Session.putLoop w path n val buf t chunks = .ok (val', buf', u)) : SafeRun t u := by
  induction chunks generalizing n t buf val with
  | nil =>
    obtain ⟨-, heq⟩ := Prod.mk.inj (Except.ok.inj hloop)
    obtain ⟨-, rfl⟩ := Prod.mk.inj heq
    exact .refl t
  | cons chunk rest ih =>
    have hpos : 0 < chunk.length := List.length_pos_iff.2 (hne chunk List.mem_cons_self)
    rw [List.flatten_cons, List.length_append] at hle hD
    have hbuf : ∀ y < chunk.length, Session.loadBuf buf chunk y = D (n + y) := fun y hy => by
      have hy' := hD y (by omega)
      rw [List.getElem?_append_left hy, ← loadBuf_of_lt buf hy] at hy'
      exact Option.some.inj hy'
    have hend : n + chunk.length ≤ 262 * 1024 := by omega
    obtain ⟨⟨r, v⟩, hv⟩ : ∃ x, t.fsWrite (w n) path (Session.loadBuf buf chunk) chunk.length n = .ok x := by
      rw [Session.putLoop, bind_eq_ok] at hloop
      obtain ⟨x, hx, -⟩ := hloop
      exact ⟨x, fsOp_eq_ok.1 hx⟩
    have hsafe : t.Safe (.write path (Session.loadBuf buf chunk) chunk.length n) := fun j hj _ _ => by
      obtain rfl := Sum.inr.inj (h.resolve.symm.trans hj)
      exact h.tableSafe (d := ⟨Session.loadBuf buf chunk, chunk.length⟩) hpos hend
    have hcall : SafeRun t v := .call (c := w n) hsafe hv
    rw [putLoop_cons hv] at hloop
    split at hloop
    · -- the write fell short, and the loop ends
      obtain ⟨-, heq⟩ := Prod.mk.inj (Except.ok.inj hloop)
      obtain ⟨-, rfl⟩ := Prod.mk.inj heq
      exact hcall
    · next hfull =>
      rcases h.write_or_fail (d := ⟨Session.loadBuf buf chunk, chunk.length⟩) hpos hend hbuf hv with
        ⟨-, hwritten⟩ | hneg
      · refine hcall.trans (ih hwritten (fun c hc => hne c (List.mem_cons_of_mem chunk hc)) ?_ (fun y hy => ?_)
          hloop)
        · dsimp only
          omega
        · have hy' := hD (chunk.length + y) (by omega)
          rw [List.getElem?_append_right (by omega), Nat.add_sub_cancel_left] at hy'
          rw [hy', Nat.add_assoc]
      · exact absurd (not_not.1 hfull) (by omega)

end FS

namespace Session

variable {g : Layout} {s t : Session g} {sys : System} {m : Moment} {f : Command} {argv : List Name} {a : Answer g}

/-! ## The commands -/

/-- A command stays clear of what is not safe: `chmod` names no other type, `truncate` meets no
blocks of pointers, and `put` reads a file of at most 262 blocks. -/
def Careful (s : Session g) (argv : List Name) : Command → Prop
  | .chmod => ∀ path, s.shell.pathTo (argv.getD 1 []) = .ok path →
    s.fs.ModeSafe path (Int32.ofInt (strtol 8 (argv.getD 0 []))).toUInt32
  | .truncate => ∀ path, s.shell.pathTo (argv.getD 0 []) = .ok path → s.fs.TruncateSafe path 0
  | .put | .put1 => ∀ D ∈ s.files (argv.getD 0 []), D.length ≤ 262 * 1024
  | _ => True

instance (s : Session g) (argv : List Name) : (f : Command) → Decidable (s.Careful argv f)
  | .chmod | .truncate => decidableForallOk _
  | .put | .put1 => Option.decidableForallMem _
  | .cd | .pwd | .ls0 | .ls1 | .lsdashl0 | .lsdashl1 | .rename | .mkdir | .rmdir | .rm | .get | .get1 | .show
  | .statfs | .blksiz | .utime => .isTrue trivial

theorem oneCall_safe {x : Except Fault (ℤ × FS g)} (hsafe : ∀ r u, x = .ok (r, u) → s.fs.SafeRun u)
    (h : s.oneCall x = .ok a) : s.fs.SafeRun a.next.fs := by
  simp only [oneCall, bind_eq_ok, fsOp_eq_ok] at h
  obtain ⟨⟨r, u⟩, hx, h⟩ := h
  obtain rfl := Except.ok.inj h
  exact hsafe r u hx

/-- A call of an operation on the path of an argument. -/
theorem pathCall_safe {arg : Name} {x : Path → Except Fault (ℤ × FS g)}
    (hsafe : ∀ path, s.shell.pathTo arg = .ok path → ∀ r u, x path = .ok (r, u) → s.fs.SafeRun u)
    (h : (do s.oneCall (x (← s.shell.pathTo arg))) = .ok a) : s.fs.SafeRun a.next.fs := by
  rw [bind_eq_ok] at h
  obtain ⟨path, hpath, h⟩ := h
  exact oneCall_safe (hsafe path hpath) h

theorem listDir_fs {line : Name → FS.Stat → List UInt8} {path : Path} (h : s.listDir line path = .ok a) :
    a.next = s := by
  simp only [listDir, bind_eq_ok] at h
  obtain ⟨x, -, rows, -, h⟩ := h
  obtain rfl := Except.ok.inj h
  rfl

theorem lsdashl_fs {path : Path} (h : s.lsdashl sys path = .ok a) : a.next = s := by
  simp only [lsdashl, bind_eq_ok] at h
  obtain ⟨x, -, h⟩ := h
  cases x with
  | inl ret =>
    obtain rfl := Except.ok.inj h
    rfl
  | inr sb =>
    dsimp only at h
    split at h
    · exact listDir_fs h
    · rw [bind_eq_ok] at h
      obtain ⟨rows, -, h⟩ := h
      obtain rfl := Except.ok.inj h
      rfl

theorem doGet_fs {inside outside : Name} (h : s.doGet sys inside outside = .ok a) : a.next.fs = s.fs := by
  rw [doGet] at h
  split at h
  · simp only [bind_eq_ok] at h
    obtain ⟨path, -, x, -, h⟩ := h
    obtain rfl := Except.ok.inj h
    rfl
  · obtain rfl := Except.ok.inj h
    rfl

theorem doShow_fs {file : Name} (h : s.doShow file = .ok a) : a.next.fs = s.fs := by
  simp only [doShow, bind_eq_ok] at h
  obtain ⟨path, -, x, -, h⟩ := h
  obtain rfl := Except.ok.inj h
  rfl

/-- `put`, of a file of at most 262 blocks. -/
theorem doPut_safe {outside inside : Name} (hwf : FS.WellFormed s.fs)
    (hlen : ∀ D ∈ s.files outside, D.length ≤ 262 * 1024) (h : s.doPut m outside inside = .ok a) :
    s.fs.SafeRun a.next.fs := by
  rw [doPut] at h
  split at h
  · obtain rfl := Except.ok.inj h
    exact .refl s.fs
  · next D hD =>
    have hle := hlen D hD
    simp only [bind_eq_ok, fsOp_eq_ok] at h
    obtain ⟨path, -, ⟨val, t⟩, hmk, h⟩ := h
    have hcall : s.fs.SafeRun t := .call (c := m.call) (a := .mknod path 0x81FF) trivial hmk
    dsimp only at h
    split at h
    · obtain rfl := Except.ok.inj h
      exact hcall
    · next hval =>
      obtain rfl := not_not.1 hval
      obtain ⟨p, j, i, name, fresh, hpar, hc⟩ := FS.exists_created hwf.toWf hmk
      simp only [bind_eq_ok] at h
      obtain ⟨⟨val', buf, u⟩, hloop, h⟩ := h
      obtain rfl := Except.ok.inj h
      have hwritten := hc.written hwf hpar (by decide) fun y => D.getD y 0
      have hprefix := FS.flatten_reads_prefix (mallocSize s.shell.blksiz) D.length D
      refine hcall.trans (hwritten.putLoop_safe (fun c hc => FS.ne_nil_of_mem_reads hc) ?_ (fun y hy => ?_)
        hloop)
      · have := hprefix.length_le
        omega
      · have hy' : y < D.length := hy.trans_le hprefix.length_le
        rw [List.getElem?_eq_getElem hy, hprefix.getElem hy, Nat.zero_add, List.getD_eq_getElem D 0 hy']

/-- **A careful command** makes safe calls. -/
theorem call_safe (hwf : FS.WellFormed s.fs) (hcareful : s.Careful argv f)
    (h : s.call sys m f argv = .ok a) : s.fs.SafeRun a.next.fs := by
  have hsame : a.next.fs = s.fs → s.fs.SafeRun a.next.fs := fun heq => by
    rw [heq]
    exact .refl s.fs
  cases f with
  | cd =>
    simp only [call, bind_eq_ok] at h
    obtain ⟨shell, -, h⟩ := h
    obtain rfl := Except.ok.inj h
    exact .refl s.fs
  | pwd =>
    obtain rfl := Except.ok.inj h
    exact .refl s.fs
  | ls0 => exact hsame (congrArg Session.fs (listDir_fs h))
  | ls1 =>
    simp only [call, bind_eq_ok] at h
    obtain ⟨path, -, h⟩ := h
    exact hsame (congrArg Session.fs (listDir_fs h))
  | lsdashl0 => exact hsame (congrArg Session.fs (lsdashl_fs h))
  | lsdashl1 =>
    simp only [call, bind_eq_ok] at h
    obtain ⟨path, -, h⟩ := h
    exact hsame (congrArg Session.fs (lsdashl_fs h))
  | chmod =>
    exact pathCall_safe (fun path hpath r u hr => .call (c := m.call) (a := .chmod path _) (hcareful path hpath) hr) h
  | rename =>
    simp only [call, bind_eq_ok] at h
    obtain ⟨p1, -, p2, -, h⟩ := h
    exact oneCall_safe (fun r u hr => .call (c := m.call) (a := .rename p1 p2) trivial hr) h
  | mkdir => exact pathCall_safe (fun path _ r u hr => .call (c := m.call) (a := .mkdir path 0x1FF) trivial hr) h
  | rmdir => exact pathCall_safe (fun path _ r u hr => .call (c := m.call) (a := .rmdir path) trivial hr) h
  | rm => exact pathCall_safe (fun path _ r u hr => .call (c := m.call) (a := .unlink path) trivial hr) h
  | put => exact doPut_safe hwf hcareful h
  | put1 => exact doPut_safe hwf hcareful h
  | get => exact hsame (doGet_fs h)
  | get1 => exact hsame (doGet_fs h)
  | «show» => exact hsame (doShow_fs h)
  | statfs =>
    simp only [call, doStatfs, bind_eq_ok] at h
    obtain ⟨x, -, h⟩ := h
    obtain rfl := Except.ok.inj h
    exact .refl s.fs
  | blksiz =>
    obtain rfl := Except.ok.inj h
    exact .refl s.fs
  | truncate =>
    exact pathCall_safe (fun path hpath r u hr => .call (c := m.call) (a := .truncate path 0) (hcareful path hpath) hr)
      h
  | utime => exact pathCall_safe (fun path _ r u hr => .call (c := m.call) (a := .utime path _) trivial hr) h

/-! ## Lines -/

/-- The row of the table that a line calls, and the arguments. -/
def called (line : List UInt8) : Option (CommandRow × List Name) :=
  if line.head? = some 35 then none
  else match lineWords line with
  | [] => none
  | name :: argv =>
    if name = ascii "quit" ∨ name = ascii "exit" ∨ name = ascii "help" then none
    else (cmds.find? fun row => name == ascii row.name && argv.length == row.nargs).map (·, argv)

/-- The session that goes on after a line. -/
def after (sys : System) (s : Session g) (m : Moment) (line : List UInt8) : Option (Session g) :=
  match s.step sys m line with
  | .ok (.next _ t) => some t
  | _ => none

/-- Lines one after another, each of which calls a command that is careful then, if any. -/
def AllCareful (sys : System) (s : Session g) : List (Moment × List UInt8) → Prop
  | [] => True
  | (m, line) :: rest => (∀ x ∈ called line, s.Careful x.2 x.1.f) ∧ ∀ t ∈ s.after sys m line, t.AllCareful sys rest

instance decidableAllCareful (sys : System) (s : Session g) :
    (lines : List (Moment × List UInt8)) → Decidable (s.AllCareful sys lines)
  | [] => .isTrue trivial
  | (m, line) :: rest =>
    haveI (t : Session g) := decidableAllCareful sys t rest
    inferInstanceAs (Decidable ((∀ x ∈ called line, s.Careful x.2 x.1.f) ∧
      ∀ t ∈ s.after sys m line, t.AllCareful sys rest))

/-- **A line** calls a command, or changes nothing. -/
theorem step_next {line out : List UInt8} (h : s.step sys m line = .ok (.next out t)) :
    t = s ∨ ∃ row argv a, called line = some (row, argv) ∧ s.call sys m row.f argv = .ok a ∧ t = a.next := by
  unfold step at h
  unfold called
  dsimp only at h
  split at h
  · exact Or.inl (Outcome.next.inj (Except.ok.inj h)).2.symm
  · next hcomment =>
    rw [if_neg hcomment]
    cases hwords : lineWords line with
    | nil =>
      rw [hwords] at h
      exact Or.inl (Outcome.next.inj (Except.ok.inj h)).2.symm
    | cons name argv =>
      rw [hwords] at h
      dsimp only at h ⊢
      split at h
      · simp at h
      · next hquit =>
        split at h
        · exact Or.inl (Outcome.next.inj (Except.ok.inj h)).2.symm
        · next hhelp =>
          rw [if_neg (by tauto)]
          cases hrow : cmds.find? fun row => name == ascii row.name && argv.length == row.nargs with
          | none =>
            rw [hrow] at h
            exact Or.inl (Outcome.next.inj (Except.ok.inj h)).2.symm
          | some row =>
            rw [hrow] at h
            simp only [bind_eq_ok] at h
            obtain ⟨a, ha, h⟩ := h
            exact Or.inr ⟨row, argv, a, rfl, ha, (Outcome.next.inj (Except.ok.inj h)).2.symm⟩

/-- **A careful session** makes safe calls. -/
theorem cmdloop_safe {lines : List (Moment × List UInt8)} {out : List UInt8}
    (hs : FS.Indexed s.fs) (hino : 64 ≤ g.numInodes) (hcareful : s.AllCareful sys lines)
    (h : cmdloop sys s lines = .ok (out, t)) : s.fs.SafeRun t.fs := by
  induction lines generalizing s out with
  | nil =>
    obtain ⟨-, rfl⟩ := Prod.mk.inj (Except.ok.inj h)
    exact .refl s.fs
  | cons x rest ih =>
    obtain ⟨m, line⟩ := x
    rw [cmdloop, bind_eq_ok] at h
    obtain ⟨o, hstep, h⟩ := h
    cases o with
    | quit out' =>
      obtain ⟨-, rfl⟩ := Prod.mk.inj (Except.ok.inj h)
      exact .refl s.fs
    | next out' u =>
      simp only [bind_eq_ok] at h
      obtain ⟨⟨out'', v⟩, hrest, h⟩ := h
      obtain ⟨-, rfl⟩ := Prod.mk.inj (Except.ok.inj h)
      have hrun : s.fs.SafeRun u.fs := by
        rcases step_next hstep with rfl | ⟨row, argv, a, hcalled, ha, rfl⟩
        · exact .refl _
        · exact call_safe ⟨hs.toWf, hino⟩ (hcareful.1 _ hcalled) ha
      have hafter : u ∈ s.after sys m line := by
        rw [after, hstep]
        rfl
      exact hrun.trans (ih (hrun.indexed hs) (hcareful.2 u hafter) hrest)

end Session

end Fsx600
