import Fsx600.Properties.Sessions

/-!
# Scripts

A session reads no more of a state than the calls of `fs_ops` do, so two sessions whose states are
alike go on alike (`Alike.cmdloop`).  A process that is started on the image that another one has
left mounts a state that is like the one the other had; so it does what the other would have done
if it had gone on with a new shell (`commandLine_image`).

So scripts that run one after another, each in a process of its own, are one run of calls, and the
checker accepts what they leave (`accepted_of_scripts`).
-/

namespace Fsx600

open Checked Function Mkfs

namespace FS

variable {g : Layout} {s t : FS g} {sh : Shell} {files : Name → Option (List UInt8)}

/-! ## Sessions side by side -/

/-- Sessions that differ in states that are alike. -/
inductive SameSession : Session g → Session g → Prop
  | mk {s t : FS g} (h : Alike s t) (sh : Shell) (files : Name → Option (List UInt8)) :
      SameSession ⟨s, sh, files⟩ ⟨t, sh, files⟩

/-- The same answers, but for that. -/
inductive SameAnswer : Answer g → Answer g → Prop
  | mk (out : List UInt8) (ret : ℤ) {a b : Session g} (h : SameSession a b) : SameAnswer ⟨out, ret, a⟩ ⟨out, ret, b⟩

/-- The same output, but for that. -/
inductive SameOutput : List UInt8 × Session g → List UInt8 × Session g → Prop
  | mk (out : List UInt8) {a b : Session g} (h : SameSession a b) : SameOutput (out, a) (out, b)

/-- The same outcome of a line, but for that. -/
inductive SameStep : Session.Outcome g → Session.Outcome g → Prop
  | next (out : List UInt8) {a b : Session g} (h : SameSession a b) : SameStep (.next out a) (.next out b)
  | quit (out : List UInt8) : SameStep (.quit out) (.quit out)

theorem matches_fsOp {α β : Type} {R : α → β → Prop} {x : Except Fault α} {y : Except Fault β}
    (h : Matches R x y) : Matches R (fsOp x) (fsOp y) := by
  cases h with
  | error e => exact .error _
  | ok h => exact .ok h

section Alike

variable (h : Alike s t) (sys : System) (m : Moment)
include h

theorem Alike.say (sh : Shell) (files : Name → Option (List UInt8)) (out : List UInt8) (ret : ℤ) :
    SameAnswer (Session.say ⟨s, sh, files⟩ out ret) (Session.say ⟨t, sh, files⟩ out ret) :=
  .mk out ret (.mk h sh files)

omit h in
theorem matches_oneCall {x y : Except Fault (ℤ × FS g)} (hxy : Matches Alike.Pair x y) :
    Matches SameAnswer (Session.oneCall ⟨s, sh, files⟩ x) (Session.oneCall ⟨t, sh, files⟩ y) := by
  refine (matches_fsOp hxy).bind fun a b hab => ?_
  cases hab with
  | mk ret h => exact .ok (.mk [] ret (.mk h sh files))

theorem Alike.listDir (line : Name → FS.Stat → List UInt8) (path : Path) :
    Matches SameAnswer (Session.listDir ⟨s, sh, files⟩ line path) (Session.listDir ⟨t, sh, files⟩ line path) := by
  refine .bind_eq (congrArg fsOp (h.fsReaddir path)) fun x => ?_
  refine .bind_eq rfl fun rows => ?_
  exact .ok (h.say sh files _ _)

theorem Alike.lsdashl (path : Path) :
    Matches SameAnswer (Session.lsdashl ⟨s, sh, files⟩ sys path) (Session.lsdashl ⟨t, sh, files⟩ sys path) := by
  refine .bind_eq (congrArg fsOp (h.fsGetattr path)) fun x => ?_
  cases x with
  | inl ret => exact .ok (h.say sh files [] ret)
  | inr sb =>
    refine .ite (h.listDir _ path) ?_
    exact .bind_eq rfl fun rows => .ok (h.say sh files _ 0)

theorem Alike.getBytes (path : Path) :
    Session.getBytes ⟨t, sh, files⟩ path = Session.getBytes ⟨s, sh, files⟩ path := by
  unfold Session.getBytes
  exact getLoop_congr h.fsRead ..

theorem Alike.doGet (inside outside : Name) :
    Matches SameAnswer (Session.doGet ⟨s, sh, files⟩ sys inside outside)
      (Session.doGet ⟨t, sh, files⟩ sys inside outside) := by
  refine .ite ?_ (.ok (h.say sh files [] (-1)))
  refine .bind_eq rfl fun path => ?_
  refine .bind_eq (h.getBytes path) fun x => ?_
  exact .ok (.mk [] _ (.mk h _ _))

theorem Alike.doShow (file : Name) :
    Matches SameAnswer (Session.doShow ⟨s, sh, files⟩ file) (Session.doShow ⟨t, sh, files⟩ file) := by
  refine .bind_eq rfl fun path => ?_
  refine .bind_eq (h.getBytes path) fun x => ?_
  exact .ok (.mk _ _ (.mk h _ _))

/-- The same value and buffer, and states that are alike. -/
inductive Looped : ℤ × (ℕ → UInt8) × FS g → ℤ × (ℕ → UInt8) × FS g → Prop
  | mk (val : ℤ) (buf : ℕ → UInt8) {s t : FS g} (h : Alike s t) : Looped (val, buf, s) (val, buf, t)

theorem Alike.putLoop (w : ℕ → Context) (path : Path) (offset : ℕ) (val : ℤ) (buf : ℕ → UInt8)
    (chunks : List (List UInt8)) : Matches Looped (Session.putLoop w path offset val buf s chunks)
      (Session.putLoop w path offset val buf t chunks) := by
  induction chunks generalizing offset val buf s t with
  | nil => exact .ok (.mk val buf h)
  | cons chunk rest ih =>
    refine (matches_fsOp (h.fsWrite _ path _ _ offset)).bind fun a b hab => ?_
    cases hab with
    | mk val h => exact .ite (.ok (.mk val _ h)) (ih h _ val _)

theorem Alike.doPut (outside inside : Name) :
    Matches SameAnswer (Session.doPut ⟨s, sh, files⟩ m outside inside)
      (Session.doPut ⟨t, sh, files⟩ m outside inside) := by
  unfold Session.doPut
  dsimp only
  cases files outside with
  | none => exact .ok (h.say sh files [] (-1))
  | some bytes =>
    refine .bind_eq rfl fun path => ?_
    refine (matches_fsOp (h.fsMknod m.call path _)).bind fun a b hab => ?_
    cases hab with
    | mk val h =>
      refine .ite (.ok (.mk [] val (.mk h sh files))) ?_
      refine (h.putLoop m.write path 0 val _ _).bind fun a b hab => ?_
      cases hab with
      | mk val buf h => exact .ok (.mk [] _ (.mk h _ files))

/-- **A command** does the same. -/
theorem Alike.call (f : Command) (argv : List Name) :
    Matches SameAnswer (Session.call ⟨s, sh, files⟩ sys m f argv) (Session.call ⟨t, sh, files⟩ sys m f argv) := by
  cases f with
  | cd => exact .bind_eq rfl fun shell => .ok (.mk [] 0 (.mk h shell files))
  | pwd => exact .ok (h.say sh files _ 0)
  | ls0 => exact h.listDir _ _
  | ls1 => exact .bind_eq rfl fun path => h.listDir _ path
  | lsdashl0 => exact h.lsdashl sys _
  | lsdashl1 => exact .bind_eq rfl fun path => h.lsdashl sys path
  | chmod => exact .bind_eq rfl fun path => matches_oneCall (h.fsChmod m.call path _)
  | rename => exact .bind_eq rfl fun p1 => .bind_eq rfl fun p2 => matches_oneCall (h.fsRename m.call p1 p2)
  | mkdir => exact .bind_eq rfl fun path => matches_oneCall (h.fsMknod m.call path _)
  | rmdir => exact .bind_eq rfl fun path => matches_oneCall (h.fsRmdir path)
  | rm => exact .bind_eq rfl fun path => matches_oneCall (h.fsUnlink m.call path)
  | put => exact h.doPut m _ _
  | put1 => exact h.doPut m _ _
  | get => exact h.doGet sys _ _
  | get1 => exact h.doGet sys _ _
  | «show» => exact h.doShow _
  | statfs => exact .bind_eq (congrArg fsOp h.fsStatfs) fun x => .ok (h.say sh files _ x.1)
  | blksiz => exact .ok (.mk _ 0 (.mk h _ files))
  | truncate => exact .bind_eq rfl fun path => matches_oneCall (h.fsTruncate path 0)
  | utime => exact .bind_eq rfl fun path => matches_oneCall (h.fsUtime path _)

/-- **A line** does the same. -/
theorem Alike.step (line : List UInt8) :
    Matches SameStep (Session.step ⟨s, sh, files⟩ sys m line) (Session.step ⟨t, sh, files⟩ sys m line) := by
  unfold Session.step
  dsimp only
  refine .ite (.ok (.next _ (.mk h sh files))) ?_
  cases Session.lineWords line with
  | nil => exact .ok (.next _ (.mk h sh files))
  | cons name argv =>
    refine .ite (.ok (.quit _)) (.ite (.ok (.next _ (.mk h sh files))) ?_)
    cases cmds.find? fun row => name == ascii row.name && argv.length == row.nargs with
    | none => exact .ok (.next _ (.mk h sh files))
    | some row =>
      refine (h.call sys m row.f argv).bind fun a b hab => ?_
      cases hab with
      | mk out ret h => exact .ok (.next _ h)

/-- **A session** does the same. -/
theorem Alike.cmdloop (lines : List (Moment × List UInt8)) :
    Matches SameOutput (Session.cmdloop sys ⟨s, sh, files⟩ lines) (Session.cmdloop sys ⟨t, sh, files⟩ lines) := by
  induction lines generalizing s t sh files with
  | nil => exact .ok (.mk _ (.mk h sh files))
  | cons x rest ih =>
    refine (h.step sys x.1 x.2).bind fun a b hab => ?_
    cases hab with
    | quit out => exact .ok (.mk _ (.mk h sh files))
    | next out h =>
      cases h with
      | mk h sh files =>
        refine (ih h).bind fun a b hab => ?_
        cases hab with
        | mk out' h => exact .ok (.mk _ h)

end Alike

/-- **A new process** on the image of a synchronised state does what the old one would do with a new
shell: it stops for the same reason, or prints the same and leaves the same image and the same
files. -/
theorem commandLine_image (hsync : s.Synced) (hsb : g.Describes s.image) (sys : System) (ms : ℕ → Moment)
    (files : Name → Option (List UInt8)) (input : List UInt8) :
    commandLine sys ms s.image files input =
      (Session.cmdloop sys ⟨s, .start, files⟩ (timedLines ms input)).map fun x =>
        (ascii "read/write block size: 1000\n" ++ x.1, x.2.fs.image, x.2.files) := by
  have hmatches : Matches SameOutput (Session.cmdloop sys ⟨s, .start, files⟩ (timedLines ms input))
      (Session.cmdloop sys ⟨.mounted g s.image, .start, files⟩ (timedLines ms input)) :=
    (hsync.alike_mounted hsb).cmdloop sys (timedLines ms input)
  rw [commandLine, fsInit_eq hsb]
  dsimp only [fsOp]
  rw [ok_bind]
  dsimp only
  rw [show Shell.start.updateCwd = .ok Shell.start from rfl, ok_bind]
  cases hx : Session.cmdloop sys ⟨s, .start, files⟩ (timedLines ms input) with
  | error e =>
    rw [hmatches.of_error hx]
    rfl
  | ok x =>
    obtain ⟨y, hy, hxy⟩ := hmatches.of_ok hx
    rw [hy, ok_bind]
    cases hxy with
    | mk out h =>
      cases h with
      | mk h sh files =>
        dsimp only
        rw [h.image]
        rfl

/-! ## One process after another -/

/-- The input of a process, and when its lines are read. -/
structure Script where
  moments : ℕ → Moment
  input : List UInt8

/-- Scripts one after another, each in a process of its own: what each of them prints, and the image
and the files outside that they leave. -/
def commandLines (sys : System) (im : Image) (files : Name → Option (List UInt8)) :
    List Script → Except ShellFault (List (List UInt8) × Image × (Name → Option (List UInt8)))
  | [] => .ok ([], im, files)
  | script :: rest => do
    let (out, im, files) ← commandLine sys script.moments im files script.input
    let (outs, im, files) ← commandLines sys im files rest
    .ok (out :: outs, im, files)

/-- The same in one process, which has a new shell for every script. -/
def runScripts (sys : System) (s : FS g) (files : Name → Option (List UInt8)) :
    List Script → Except ShellFault (List (List UInt8) × FS g × (Name → Option (List UInt8)))
  | [] => .ok ([], s, files)
  | script :: rest => do
    let (out, t) ← Session.cmdloop sys ⟨s, .start, files⟩ (timedLines script.moments script.input)
    let (outs, u, files) ← runScripts sys t.fs t.files rest
    .ok ((ascii "read/write block size: 1000\n" ++ out) :: outs, u, files)

/-- Scripts each of which is careful where it is run. -/
def CarefulScripts (sys : System) (s : FS g) (files : Name → Option (List UInt8)) : List Script → Prop
  | [] => True
  | script :: rest => Session.AllCareful sys ⟨s, .start, files⟩ (timedLines script.moments script.input) ∧
    ∀ x, Session.cmdloop sys ⟨s, .start, files⟩ (timedLines script.moments script.input) = .ok x →
      CarefulScripts sys x.2.fs x.2.files rest

instance decidableCarefulScripts (sys : System) (s : FS g) (files : Name → Option (List UInt8)) :
    (scripts : List Script) → Decidable (CarefulScripts sys s files scripts)
  | [] => .isTrue trivial
  | script :: rest =>
    haveI (x : List UInt8 × Session g) := decidableCarefulScripts sys x.2.fs x.2.files rest
    inferInstanceAs (Decidable (Session.AllCareful sys ⟨s, .start, files⟩ (timedLines script.moments script.input) ∧
      ∀ x, Session.cmdloop sys ⟨s, .start, files⟩ (timedLines script.moments script.input) = .ok x →
        CarefulScripts sys x.2.fs x.2.files rest))

section Careful

variable {sys : System} {scripts : List Script} (hino : 64 ≤ g.numInodes)
include hino

/-- **Careful scripts** make safe calls. -/
theorem runScripts_safe (hs : Indexed s) (hcareful : CarefulScripts sys s files scripts) {outs : List (List UInt8)}
    {files' : Name → Option (List UInt8)} (h : runScripts sys s files scripts = .ok (outs, t, files')) :
    SafeRun s t := by
  induction scripts generalizing s files outs with
  | nil =>
    obtain ⟨-, heq⟩ := Prod.mk.inj (Except.ok.inj h)
    obtain ⟨rfl, -⟩ := Prod.mk.inj heq
    exact .refl s
  | cons script rest ih =>
    rw [runScripts, bind_eq_ok] at h
    obtain ⟨⟨out, u⟩, hloop, h⟩ := h
    rw [bind_eq_ok] at h
    obtain ⟨⟨outs', v, files''⟩, hrest, h⟩ := h
    obtain ⟨-, heq⟩ := Prod.mk.inj (Except.ok.inj h)
    obtain ⟨rfl, rfl⟩ := Prod.mk.inj heq
    have hrun : SafeRun s u.fs := Session.cmdloop_safe hs hino hcareful.1 hloop
    exact hrun.trans (ih (hrun.indexed hs) (hcareful.2 _ hloop) hrest)

/-- **Processes one after another** are one that has a new shell for every script. -/
theorem commandLines_image {s₀ : FS g} (hs : Steady s₀ s) (hsb : g.Describes s₀.image)
    (hcareful : CarefulScripts sys s files scripts) : commandLines sys s.image files scripts =
      (runScripts sys s files scripts).map fun x => (x.1, x.2.1.image, x.2.2) := by
  induction scripts generalizing s files with
  | nil => rfl
  | cons script rest ih =>
    rw [commandLines, runScripts, commandLine_image hs.synced (describes_of_disk hsb hs.superblock)]
    cases hx : Session.cmdloop sys ⟨s, .start, files⟩ (timedLines script.moments script.input) with
    | error e => rfl
    | ok x =>
      obtain ⟨calls, codes, hsafe, hcalls⟩ := Session.cmdloop_safe hs.indexed hino hcareful.1 hx
      have hrest := ih (hs.run hsafe hcalls) (hcareful.2 x hx)
      rw [ok_bind]
      dsimp only [Except.map]
      rw [ok_bind]
      dsimp only
      rw [hrest]
      cases runScripts sys x.2.fs x.2.files rest with
      | error e => rfl
      | ok y => rfl

end Careful

theorem commandLines_formatted {n : ℕ} (h : Formattable n) (hino : 64 ≤ (layout h).numInodes) (t : UInt32)
    {sys : System} {files : Name → Option (List UInt8)} {scripts : List Script}
    (hcareful : CarefulScripts sys (fresh h t) files scripts) :
    commandLines sys (formatted h t) files scripts =
      (runScripts sys (fresh h t) files scripts).map fun x => (x.1, x.2.1.image, x.2.2) :=
  commandLines_image hino (steady_fresh h t) (describes h t) hcareful

/-- **The checker accepts what scripts leave.**  Careful scripts on a new image of a multiple of 64
blocks, each in a process of its own, print what they would print in one process, and leave the
image that a run of safe calls leaves; and on that the checker comes to its end, prints no error,
and has been to the inodes of the tree. -/
theorem accepted_of_scripts {n : ℕ} (h : Formattable n) (hdvd : 64 ∣ n) (hino : 64 ≤ (layout h).numInodes)
    (t : UInt32) (sys : System) (files : Name → Option (List UInt8)) (scripts : List Script)
    (hcareful : CarefulScripts sys (fresh h t) files scripts) {outs : List (List UInt8)} {im : Image}
    {files' : Name → Option (List UInt8)}
    (hrun : commandLines sys (formatted h t) files scripts = .ok (outs, im, files'))
    (fuel : ℕ) (hfuel : (layout h).numInodes < fuel) :
    ∃ s : FS (layout h), runScripts sys (fresh h t) files scripts = .ok (outs, s, files') ∧
      SafeRun (fresh h t) s ∧ s.image = im ∧
      ∃ r lost, ReadImg.main im fuel = .ok (r, lost) ∧ s.Accepted r lost := by
  have hsame := commandLines_formatted h hino t hcareful
  rw [hrun] at hsame
  cases hone : runScripts sys (fresh h t) files scripts with
  | error e => simp [hone, Except.map] at hsame
  | ok x =>
    obtain ⟨outs', s, files''⟩ := x
    rw [hone] at hsame
    obtain ⟨rfl, heq⟩ := Prod.mk.inj (Except.ok.inj hsame)
    obtain ⟨rfl, rfl⟩ := Prod.mk.inj heq
    have hsafe := runScripts_safe hino (indexed_fresh h t) hcareful hone
    refine ⟨s, rfl, hsafe, rfl, ?_⟩
    obtain ⟨calls, codes, hcalls, hran⟩ := hsafe
    exact ((steady_fresh h t).run hcalls hran).accepted hdvd hfuel

/-- A directory and a file that is put into it; and in another process the file has a new name. -/
def sampleScripts : List Script :=
  let moments := fun k => ⟨⟨1000, 1000, UInt32.ofNat k⟩, fun _ => ⟨1000, 1000, 7⟩⟩
  [⟨moments, ascii "mkdir a\ncd a\nput x b\nchmod 600 b\n"⟩, ⟨moments, ascii "rename a/b a/c\nls a\nquit\n"⟩]

/-- Every file outside has 1100 bytes. -/
def sampleFiles : Name → Option (List UInt8) := fun _ => some (List.replicate 1100 7)

theorem accepted_of_sampleScripts : ∃ (s : FS (layout formattable_256)) (outs : List (List UInt8))
    (files : Name → Option (List UInt8)) (r : ReadImg.Survey) (lost : Option (List ℕ)),
    commandLines Session.sampleSystem (formatted formattable_256 0) sampleFiles sampleScripts =
      .ok (outs, s.image, files) ∧
    ReadImg.main s.image 65 = .ok (r, lost) ∧ s.Accepted r lost := by
  have hcareful : CarefulScripts Session.sampleSystem (fresh formattable_256 0) sampleFiles sampleScripts := by
    decide +kernel
  have hreturns : (runScripts Session.sampleSystem (fresh formattable_256 0) sampleFiles sampleScripts).isOk =
      true := by
    decide +kernel
  have hsame := commandLines_formatted formattable_256 (by decide) 0 hcareful
  cases hone : runScripts Session.sampleSystem (fresh formattable_256 0) sampleFiles sampleScripts with
  | error e =>
    rw [hone] at hreturns
    exact absurd (show false = true from hreturns) (by decide)
  | ok x =>
    rw [hone] at hsame
    dsimp only [Except.map] at hsame
    obtain ⟨s, -, -, himage, r, lost, hmain, haccepted⟩ := accepted_of_scripts formattable_256 (by decide)
      (by decide) 0 Session.sampleSystem sampleFiles sampleScripts hcareful hsame 65 (by decide)
    rw [← himage] at hsame hmain
    exact ⟨s, x.1, x.2.2, r, lost, hsame, hmain, haccepted⟩

end FS

end Fsx600
