import HackVm.Proofs.Files.Inspection
import HackVm.Proofs.Files.Writing

set_option autoImplicit false

/-! # A build writes its output or nothing

A build looks at files, makes a text, and writes it in its last step. So with files that stay as
they are when they are looked at and when a write is refused, a build that does not succeed leaves
everything as it was, and one that succeeds has written the text of the program
(`yields_translateFile`).

For stored files more can be said of the write: one place changes, and what is read there is the
text (`translateFile_all_or_nothing`). Here a store may also refuse to open paths for writing, each
for a reason of its own (`GuardedStore`). -/

namespace HackVm

/-! ## Steps of a build -/

section

variable {S : Type} [FileSystem (StateM S)]

theorem inspects_outputTarget (steady : FileSystem.Steady S) (input : String)
    (output : Option Setting) :
    (outputTarget input output : ReportT BuildError (StateM S) _).Inspects
      BuildError.NotBlank := by
  cases output with
  | some setting => exact .pure setting
  | none => exact (inspects_defaultOutput steady input).map Setting.given

omit [FileSystem (StateM S)] in
theorem inspects_settle (e : BuildError) :
    (settle e : ReportT BuildError (StateM S) Unit).Inspects fun _ => ¬ e.NotBlank := by
  unfold settle
  split
  · rename_i hblank
    exact .bind (.throw fun hnot => Bool.false_ne_true (hnot.symm.trans hblank)) fun _ => .note _
  · exact .note _

/-- A write succeeds and does what the files do then, or it fails and leaves everything. -/
theorem yields_writeOutput (steady : FileSystem.Steady S) (text : String) (target : Setting)
    (s : S) :
    let write : ReportT BuildError (StateM S) Unit := writeOutput text target
    (∃ path s', target = .given path ∧
      (FileSystem.write path text : StateM S _).run s = (.ok (), s') ∧
      write.Yields s (.ok ()) s') ∨
    ∃ e, (target ≠ .blank → e.NotBlank) ∧ write.Yields s (.error e) s := by
  intro write
  cases target with
  | blank => exact .inr ⟨.blankOutput, fun hne => absurd rfl hne, rfl, rfl⟩
  | given path =>
    rcases hwrite : (FileSystem.write path text : StateM S _).run s with ⟨answer, s'⟩
    have hanswer : ((FileSystem.write path text : StateM S _) :
        ReportT BuildError (StateM S) _).Yields s (.ok answer) s' := .ofState hwrite
    cases answer with
    | ok => exact .inl ⟨path, s', rfl, hwrite, hanswer.bind ⟨rfl, rfl⟩⟩
    | error cause =>
      have hsame := steady.write path text s cause (congrArg Prod.fst hwrite)
      rw [hwrite] at hsame
      exact .inr ⟨.access path cause, fun _ => rfl, hanswer.bind ⟨rfl, hsame⟩⟩

/-- A program is translated and its text written, or nothing is changed. -/
theorem yields_buildInto (steady : FileSystem.Steady S) (settings : Settings) (input : String)
    (target : Setting) (s : S) :
    let build : ReportT BuildError (StateM S) Unit := buildInto settings input target
    (∃ text path s',
      (translatePath settings input : ReportT BuildError (StateM S) _).resultAt s = .ok text ∧
      target = .given path ∧ (FileSystem.write path text : StateM S _).run s = (.ok (), s') ∧
      build.Yields s (.ok ()) s') ∨
    ∃ e, (settings.entry ≠ .blank → target ≠ .blank → e.NotBlank) ∧
      build.Yields s (.error e) s := by
  intro build
  rcases inspects_translatePath steady settings input s with ⟨text, htext⟩ | ⟨e, hblank, herror⟩
  · rcases yields_writeOutput steady text target s with
      ⟨path, s', htarget, hrun, hwrite⟩ | ⟨e, hblank, herror⟩
    · exact .inl ⟨text, path, s', htext.1, htarget, hrun,
        htext.bind (.bind (.note _ s) (hwrite.bind (.note _ s')))⟩
    · exact .inr ⟨e, fun _ => hblank, htext.bind (.bind (.note _ s) herror.bind_error)⟩
  · exact .inr ⟨e, fun hentry _ => hblank hentry, herror.bind_error⟩

/-- A build succeeds and has written the text of the program where the output goes, or it changes
nothing. Where the output is to go to a path, it fails with an error only if a blank setting causes
one. -/
theorem yields_translateFile (steady : FileSystem.Steady S) (settings : Settings)
    (input : String) (output : Option Setting) (s : S) :
    let build : ReportT BuildError (StateM S) Bool := translateFile settings input output
    (∃ text path s',
      (translatePath settings input : ReportT BuildError (StateM S) _).resultAt s = .ok text ∧
      (outputTarget input output : ReportT BuildError (StateM S) _).resultAt s =
        .ok (.given path) ∧
      (FileSystem.write path text : StateM S _).run s = (.ok (), s') ∧
      build.Yields s (.ok true) s') ∨
    build.Yields s (.ok false) s ∨
    ∃ e, build.Yields s (.error e) s ∧
      (settings.entry ≠ .blank → ∀ path, output ≠ some (.given path)) := by
  intro build
  rcases inspects_outputTarget steady input output s with ⟨target, htarget⟩ | ⟨e, -, herror⟩
  · rcases yields_buildInto steady settings input target s with
      ⟨text, path, s', htext, rfl, hrun, hbuild⟩ | ⟨e, hblank, hbuild⟩
    · have hsuccess := hbuild.bind (f := fun _ => pure true) (r := .ok true) ⟨rfl, rfl⟩
      exact .inl ⟨text, path, s', htext, htarget.1, hrun, htarget.bind hsuccess.tryCatch⟩
    · have hfailure := hbuild.bind_error (f := fun _ => pure true)
      rcases inspects_settle e s with ⟨_, hsettle⟩ | ⟨e', he', hsettle⟩
      · exact .inr (.inl (htarget.bind (hfailure.tryCatch_error (hsettle.bind ⟨rfl, rfl⟩))))
      · refine .inr (.inr ⟨e', htarget.bind (hfailure.tryCatch_error hsettle.bind_error), ?_⟩)
        rintro hentry path rfl
        obtain rfl : target = .given path := (Except.ok.inj htarget.1).symm
        exact he' (hblank hentry Setting.noConfusion)
  · refine .inr (.inr ⟨e, herror.bind_error, ?_⟩)
    rintro - path rfl
    cases herror.1

end

/-! ## Stores that refuse -/

/-- A store in which some paths cannot be opened for writing. -/
structure GuardedStore where
  store : Store
  /-- Why a path cannot be opened for writing; nothing if it can. -/
  refusal? : String → Option AccessError

namespace GuardedStore

/-- Once the path is open the write goes through, since every text has bytes: unit names with lone
surrogates, from files whose names are not UTF-8, are outside of the model as in `Store.write`. -/
def write (s : GuardedStore) (path text : String) : Except AccessError GuardedStore :=
  match s.refusal? path with
  | some e => .error e
  | none => do
    let store ← s.store.write path text
    return { s with store }

instance : FileSystem (StateM GuardedStore) where
  kind path := return (← get).store.kind path
  entries path := return (← get).store.entries path
  ownName path := return (← get).store.ownName path
  read path := return (← get).store.read path
  write path text := do
    match (← get).write path text with
    | .ok s => set s; return .ok ()
    | .error e => return .error e

theorem run_write (s : GuardedStore) (path text : String) :
    (FileSystem.write path text : StateM GuardedStore _).run s =
      match s.write path text with
      | .ok s' => (.ok (), s')
      | .error e => (.error e, s) := by
  show (match s.write path text with | .ok _ => _ | .error _ => _ : StateM GuardedStore _) s = _
  cases s.write path text <;> rfl

theorem steady : FileSystem.Steady GuardedStore where
  kind _ _ := rfl
  entries _ _ := rfl
  ownName _ _ := rfl
  read _ _ := rfl
  write path text s e h := by
    rw [run_write] at h ⊢
    cases hwrite : s.write path text with
    | ok s' =>
      rw [hwrite] at h
      cases h
    | error e' => rfl

/-- What a write that succeeds does. -/
theorem of_write_eq_ok {s s' : GuardedStore} {path text : String}
    (h : s.write path text = .ok s') :
    s.refusal? path = none ∧ ∃ place name, s.store.target path = .ok (place, name) ∧
      s' = { s with store := s.store.put (place ++ [name]) (.file text.toUTF8) } := by
  unfold write at h
  split at h
  · cases h
  rename_i hrefusal
  refine ⟨hrefusal, ?_⟩
  unfold Store.write at h
  cases htarget : s.store.target path with
  | error e =>
    rw [htarget] at h
    cases h
  | ok target =>
    rw [htarget] at h
    cases h
    exact ⟨target.1, target.2, rfl, rfl⟩

end GuardedStore

/-- A build that succeeds has found the text of the program and changed one place in the store:
the one that the output path leads to, which now holds the text, and where the text is read. Any
other build has changed nothing. A build into a path that was given ends without an error, unless
the program is to start with a blank name. -/
theorem translateFile_all_or_nothing (settings : Settings) (input : String)
    (output : Option Setting) (s : GuardedStore) :
    let build : ReportT BuildError (StateM GuardedStore) Bool := translateFile settings input output
    let after := build.stateAt s
    (build.resultAt s = .ok true → ∃ text path place name,
      (translatePath settings input : ReportT BuildError (StateM GuardedStore) String).resultAt s =
        .ok text ∧
      (outputTarget input output : ReportT BuildError (StateM GuardedStore) Setting).resultAt s =
        .ok (.given path) ∧
      s.refusal? path = none ∧ s.store.target path = .ok (place, name) ∧
      (∀ other, after.store.node? other =
        if other = place ++ [name] then some (.file text.toUTF8) else s.store.node? other) ∧
      after.store.read (Path.ofString path) = .ok text.toUTF8 ∧
      after.store.home = s.store.home ∧ after.refusal? = s.refusal?) ∧
    (build.resultAt s ≠ .ok true → after = s) ∧
    ∀ path, output = some (.given path) → settings.entry ≠ .blank →
      ∃ success, build.resultAt s = .ok success := by
  intro build after
  rcases yields_translateFile GuardedStore.steady settings input output s with
    ⟨text, path, s', htext, htarget, hrun, hresult, hstate⟩ | ⟨hresult, hstate⟩ |
    ⟨e, ⟨hresult, hstate⟩, hpath⟩
  · refine ⟨fun _ => ?_, fun hne => absurd hresult hne, fun _ _ _ => ⟨true, hresult⟩⟩
    have hafter : after = s' := hstate
    rw [GuardedStore.run_write] at hrun
    cases hwrite : s.write path text with
    | error e =>
      rw [hwrite] at hrun
      cases hrun
    | ok s'' =>
      rw [hwrite] at hrun
      cases hrun
      obtain ⟨hrefusal, place, name, hplace, rfl⟩ := GuardedStore.of_write_eq_ok hwrite
      rw [hafter]
      exact ⟨text, path, place, name, htext, htarget, hrefusal, hplace,
        s.store.node?_put (by simp) _, Store.read_put (.of_target hplace) _, rfl, rfl⟩
  · refine ⟨fun htrue => ?_, fun _ => hstate, fun _ _ _ => ⟨false, hresult⟩⟩
    cases hresult.symm.trans htrue
  · refine ⟨fun htrue => ?_, fun _ => hstate, fun path houtput hentry => ?_⟩
    · cases hresult.symm.trans htrue
    · exact absurd houtput (hpath hentry path)

/-- A store with one source file, in which `Main.asm` cannot be written. -/
def oneSource : GuardedStore where
  store := ⟨[(["Main.vm"], .file "add".toUTF8)], []⟩
  refusal? path := if path = "Main.asm" then some (.refused 13 "Permission denied") else none

/-- The text can be written elsewhere, but not beside the source. -/
theorem translateFile_all_or_nothing_oneSource :
    let build : Option Setting → ReportT BuildError (StateM GuardedStore) Bool :=
      translateFile {} "Main.vm"
    ((build (some (.given "Out.asm"))).resultAt oneSource = .ok true ∧ ∃ text,
      (translatePath {} "Main.vm" : ReportT BuildError (StateM GuardedStore) String).resultAt
        oneSource = .ok text ∧
      ((build (some (.given "Out.asm"))).stateAt oneSource).store.read (Path.ofString "Out.asm") =
        .ok text.toUTF8) ∧
    (build none).resultAt oneSource = .ok false ∧ (build none).stateAt oneSource = oneSource := by
  intro build
  have hwritten : (build (some (.given "Out.asm"))).resultAt oneSource = .ok true := by
    decide +kernel
  have hrefused : (build none).resultAt oneSource = .ok false := by decide +kernel
  obtain ⟨text, path, place, name, htext, htarget, -, -, -, hread, -⟩ :=
    (translateFile_all_or_nothing {} "Main.vm" (some (.given "Out.asm")) oneSource).1 hwritten
  obtain ⟨-, hsame, -⟩ := translateFile_all_or_nothing {} "Main.vm" none oneSource
  cases htarget
  refine ⟨⟨hwritten, text, htext, hread⟩, hrefused, hsame ?_⟩
  intro htrue
  cases hrefused.symm.trans htrue

end HackVm
