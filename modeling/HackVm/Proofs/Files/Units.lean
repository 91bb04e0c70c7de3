import HackVm.Proofs.Files.Agreement

set_option autoImplicit false

/-! # The files of a program

A directory is asked for its names once, and each of them is looked at. So the answers tell what is
found (`yields_sourceFiles`), and where something was found, what the answers were
(`exists_names_of_sourceFiles`). The units of a program are read from what is found, so states that
agree on that and on what is read agree on the units (`agrees_collectUnits`). -/

namespace HackVm

section

variable {S δ : Type} [FileSystem (StateM S)] {s : S} {path directory : Path}

theorem Path.name_child (directory : Path) (name : String) :
    (directory.child name).name = name := by
  simp [Path.name, Path.child]

theorem yields_kindOf {kind : Option FileKind}
    (h : (FileSystem.kind path : StateM S _).run s = (.ok kind, s)) :
    (kindOf path : ReportT BuildError (StateM S) _).Yields s (.ok kind) s :=
  (ReportT.Yields.ofState h).bind (.pure kind s)

theorem yields_isSourceFile {kind : Option FileKind}
    (h : (kindOf path : ReportT BuildError (StateM S) _).Yields s (.ok kind) s) :
    (isSourceFile path : ReportT BuildError (StateM S) Bool).Yields s
      (.ok (kind = some .file && path.suffix = sourceSuffix)) s :=
  h.bind (.pure _ s)

theorem of_isSourceFile (steady : FileSystem.Steady S)
    (h : (isSourceFile path : ReportT BuildError (StateM S) Bool).Yields s (.ok true) s) :
    (kindOf path : ReportT BuildError (StateM S) _).Yields s (.ok (some .file)) s ∧
      path.suffix = sourceSuffix := by
  obtain ⟨kind, hkind, hrest⟩ := (inspects_kindOf steady path).exists_of_bind h
  have hsource := Except.ok.inj hrest.1
  rw [Bool.and_eq_true, decide_eq_true_eq, decide_eq_true_eq] at hsource
  exact ⟨hsource.1 ▸ hkind, hsource.2⟩

/-- A directory is listed as the names of things some of which are source files. -/
theorem yields_sourceFiles {es : List δ} (name : δ → String) {source : δ → Bool}
    (hentries : (FileSystem.entries directory : StateM S _).run s = (es.map name, s))
    (hsource : ∀ e ∈ es, (isSourceFile (directory.child (name e)) :
      ReportT BuildError (StateM S) Bool).Yields s (.ok (source e)) s) :
    (sourceFiles directory : ReportT BuildError (StateM S) _).Yields s
      (.ok (((es.filter source).mergeSort fun a b => decide (name a ≤ name b)).map
        fun e => directory.child (name e))) s := by
  refine (ReportT.Yields.ofState hentries).bind ?_
  rw [List.map_mergeSort (s := fun a b : Path => decide (a.name ≤ b.name)) fun a _ b _ => by
    simp [Path.name, Path.child]]
  refine ReportT.Yields.bind ?_ (.pure _ s)
  rw [List.map_map]
  exact .filterM hsource

/-- Whether a name in a directory is found to be that of a source file. -/
def isSourceAt (s : S) (directory : Path) (name : String) : Bool :=
  decide ((isSourceFile (directory.child name) : ReportT BuildError (StateM S) Bool).resultAt s =
    .ok true)

/-- Where source files were found, each name has been looked at. -/
theorem exists_names_of_sourceFiles (steady : FileSystem.Steady S) {files : List Path}
    (h : (sourceFiles directory : ReportT BuildError (StateM S) _).Yields s (.ok files) s) :
    ∃ names, (FileSystem.entries directory : StateM S _).run s = (names, s) ∧
      (∀ name ∈ names, (isSourceFile (directory.child name) :
        ReportT BuildError (StateM S) Bool).Yields s (.ok (isSourceAt s directory name)) s) ∧
      files = ((names.filter (isSourceAt s directory)).mergeSort fun a b => decide (a ≤ b)).map
        directory.child := by
  have hinspects := inspects_isSourceFile steady
  have hlooked := ReportT.Inspects.ofState (E := BuildError.NotBlank) (steady.entries directory)
  obtain ⟨names, hnames, hrest⟩ := hlooked.exists_of_bind h
  obtain ⟨kept, hkept, -⟩ := (ReportT.Inspects.filterM hinspects _).exists_of_bind hrest
  have hentries : (FileSystem.entries directory : StateM S _).run s = (names, s) :=
    Prod.ext (Except.ok.inj hnames.1) hnames.2
  have hsource : ∀ name ∈ names, (isSourceFile (directory.child name) :
      ReportT BuildError (StateM S) Bool).Yields s (.ok (isSourceAt s directory name)) s := by
    intro name hname
    obtain ⟨b, hb⟩ := ReportT.Inspects.exists_of_filterM hinspects hkept _
      (List.mem_map_of_mem hname)
    have hvalue : isSourceAt s directory name = b := by
      rw [isSourceAt, hb.1]
      cases b <;> rfl
    exact hvalue ▸ hb
  have hfound := yields_sourceFiles id (by simpa using hentries) hsource
  exact ⟨names, hentries, hsource, Except.ok.inj (h.1.symm.trans hfound.1)⟩

theorem yields_unitFiles {input : String} {files : List Path}
    (hkind : (FileSystem.kind (Path.ofString input) : StateM S _).run s =
      (.ok (some .directory), s))
    (hfiles : (sourceFiles (Path.ofString input) : ReportT BuildError (StateM S) _).Yields s
      (.ok files) s) :
    (unitFiles input : ReportT BuildError (StateM S) _).Yields s
      (if files = [] then .error (.noUnits input) else .ok files) s := by
  refine (yields_kindOf hkind).bind (hfiles.bind ?_)
  cases files with
  | nil => exact .bind_error (.throw _ s)
  | cons file files => exact .pure _ s

/-- The files of a program are found in a directory, or the program is a source file. -/
theorem cases_of_unitFiles (steady : FileSystem.Steady S) {input : String} {files : List Path}
    (h : (unitFiles input : ReportT BuildError (StateM S) _).Yields s (.ok files) s) :
    ((kindOf (Path.ofString input) : ReportT BuildError (StateM S) _).Yields s
        (.ok (some .directory)) s ∧
      (sourceFiles (Path.ofString input) : ReportT BuildError (StateM S) _).Yields s
        (.ok files) s) ∨
    ((kindOf (Path.ofString input) : ReportT BuildError (StateM S) _).Yields s
        (.ok (some .file)) s ∧
      (Path.ofString input).suffix = sourceSuffix ∧ files = [Path.ofString input]) := by
  obtain ⟨kind, hkind, hrest⟩ := (inspects_kindOf steady _).exists_of_bind h
  cases kind with
  | none => cases hrest.1
  | some kind =>
    cases kind with
    | directory =>
      obtain ⟨found, hfound, hrest⟩ := (inspects_sourceFiles steady _).exists_of_bind hrest
      split_ifs at hrest
      · cases hrest.1
      · cases hrest.1
        exact .inl ⟨hkind, hfound⟩
    | file =>
      dsimp only at hrest
      split_ifs at hrest with hsuffix
      · cases hrest.1
      · cases hrest.1
        exact .inr ⟨hkind, not_not.mp hsuffix, rfl⟩

theorem agrees_unitFiles {input : String} {s' : S}
    (hkind : (kindOf (Path.ofString input) : ReportT BuildError (StateM S) _).Agrees s s')
    (hfiles : (kindOf (Path.ofString input) : ReportT BuildError (StateM S) _).Yields s
      (.ok (some .directory)) s →
      (sourceFiles (Path.ofString input) : ReportT BuildError (StateM S) _).Agrees s s') :
    (unitFiles input : ReportT BuildError (StateM S) _).Agrees s s' := by
  refine hkind.bind fun kind hyields => ?_
  cases kind with
  | none => exact .throw _ s s'
  | some kind =>
    cases kind with
    | directory =>
      refine (hfiles hyields).bind fun files _ => ?_
      split
      · exact .bind (.throw _ s s') fun _ _ => .pure _ s s'
      · exact .pure _ s s'
    | file =>
      dsimp only
      split
      · exact .bind (.throw _ s s') fun _ _ => .pure _ s s'
      · exact .pure _ s s'

/-- States that agree on the files of a program and on what is read from them agree on its
units. -/
theorem agrees_collectUnits {input : String} {s' : S}
    (hfiles : (unitFiles input : ReportT BuildError (StateM S) _).Agrees s s')
    (hread : ∀ files, (unitFiles input : ReportT BuildError (StateM S) _).Yields s (.ok files) s →
      ∀ file ∈ files, (readSource file : ReportT BuildError (StateM S) _).Agrees s s') :
    (collectUnits input : ReportT BuildError (StateM S) _).Agrees s s' := by
  rw [collectUnits_eq]
  exact hfiles.bind fun files hyields => .mapM (hread files hyields)

/-- What was found are source files. -/
theorem isSourceFile_of_mem_unitFiles (steady : FileSystem.Steady S) {input : String}
    {files : List Path}
    (h : (unitFiles input : ReportT BuildError (StateM S) _).Yields s (.ok files) s) :
    ∀ file ∈ files, (isSourceFile file : ReportT BuildError (StateM S) Bool).Yields s
      (.ok true) s := by
  intro file hfile
  rcases cases_of_unitFiles steady h with ⟨-, hfound⟩ | ⟨hkind, hsuffix, rfl⟩
  · obtain ⟨names, -, hsource, rfl⟩ := exists_names_of_sourceFiles steady hfound
    obtain ⟨name, hname, rfl⟩ := List.mem_map.mp hfile
    rw [List.mem_mergeSort, List.mem_filter] at hname
    exact hname.2 ▸ hsource name hname.1
  · rw [List.mem_singleton.mp hfile]
    simpa [hsuffix] using yields_isSourceFile hkind

theorem yields_readSource {bytes : ByteArray} {text : String}
    (hread : (FileSystem.read path : StateM S _).run s = (.ok bytes, s))
    (htext : decodeText bytes = .ok text) :
    (readSource path : ReportT BuildError (StateM S) _).Yields s (.ok (path.stem, text)) s := by
  refine (ReportT.Yields.note _ s).bind (((ReportT.Yields.ofState hread).bind (.pure bytes s)).bind
    (ReportT.Yields.bind ⟨?_, rfl⟩ (.pure _ s)))
  exact htext

theorem of_readSource (steady : FileSystem.Steady S) {u : String × String} {s' : S}
    (h : (readSource path : ReportT BuildError (StateM S) _).Yields s (.ok u) s') :
    u.1 = path.stem ∧ ∃ bytes, (FileSystem.read path : StateM S _).run s = (.ok bytes, s) ∧
      decodeText bytes = .ok u.2 := by
  obtain ⟨-, -, hrest⟩ :=
    (ReportT.Inspects.note (E := BuildError.NotBlank) (S := S) _).exists_of_bind h
  obtain ⟨bytes, hread, hrest⟩ := (inspects_granted (steady.read path)).exists_of_bind hrest
  obtain ⟨text, s₁, htext, hrest⟩ := hrest.exists_of_bind
  cases hrest.1
  exact ⟨rfl, bytes, run_of_granted hread, htext.1⟩

end

end HackVm
