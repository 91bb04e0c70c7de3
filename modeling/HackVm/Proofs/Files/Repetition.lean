import HackVm.Proofs.Files.AllOrNothing
import HackVm.Proofs.Files.Units
import HackVm.Proofs.Files.Untouched

set_option autoImplicit false

/-! # Builds made again

If nothing is said, the output of a program goes beside its source file or into its directory,
under a name that ends in `.asm` (`GuardedStore.outputOf_defaultOutput`). Sources have names that
end in `.vm`, so none of them is written (`Store.OutputOf.locate_source`), and the file that is
written is not taken for a source (`Store.OutputOf.agrees_sourceFiles`). So a build has left
everything that it looked at, and made again it changes nothing (`translateFile_repeatable`). -/

namespace HackVm

/-! ## Names of outputs -/

/-- The end of a written name stays at the end of the file's name. -/
theorem Store.Target.exists_front {s : Store} {p : Path} {front ending name : String}
    {place : Place} (t : s.Target (p.child (front ++ ending)).text place name)
    (hne : ending ≠ "") (hslash : '/' ∉ ending.toList) :
    ∃ front' : String, name = front' ++ ending ∧ name.toList.Sublist (front ++ ending).toList := by
  obtain ⟨above, hnames, -⟩ := t.names
  obtain ⟨above', front', hlast, hfront⟩ := Path.exists_namesFrom_append
    (show ending.toList ≠ [] by simpa using hne) hslash [] front.toList
  rw [Path.names_text_child, Path.names, String.toList_append, hlast, ← List.append_assoc] at hnames
  have hname := List.append_inj_right' hnames rfl
  rw [List.singleton_inj] at hname
  refine ⟨String.ofList front', by simp [← hname], ?_⟩
  simpa [← hname] using hfront

theorem source_ne_output (front front' : String) :
    front ++ sourceSuffix ≠ front' ++ outputSuffix := by
  intro h
  have hreverse := congrArg (fun text : String => text.toList.reverse) h
  simp [sourceSuffix, outputSuffix] at hreverse

/-- What is known of the place to which the output of a program goes if nothing else is said. -/
structure Store.OutputOf (s : Store) (program : Path) (out : String) (place : Place)
    (name : String) : Prop where
  target : s.Target out place name
  suffix : ∃ front : String, name = front ++ outputSuffix
  check : ∀ directory, s.locate program = .ok (directory, .directory) →
    checkPath (program.child name).text = .ok ()

/-- A unit was read from a source file that is elsewhere than an output, and is still there. -/
def KeptFrom (before after : Store) (output : Place) (file : Path) (u : String × String) : Prop :=
  ∃ source content, before.locate file = .ok (source, .file content) ∧ source ≠ output ∧
    after.locate file = .ok (source, .file content) ∧
    u.1 = file.stem ∧ decodeText content = .ok u.2

/-! ## Work on stores -/

namespace GuardedStore

variable {s s' : GuardedStore} {path : Path}

theorem run_kind (s : GuardedStore) (path : Path) :
    (FileSystem.kind path : StateM GuardedStore _).run s = (s.store.kind path, s) := rfl

theorem run_entries (s : GuardedStore) (path : Path) :
    (FileSystem.entries path : StateM GuardedStore _).run s = (s.store.entries path, s) := rfl

theorem run_ownName (s : GuardedStore) (path : Path) :
    (FileSystem.ownName path : StateM GuardedStore _).run s = (s.store.ownName path, s) := rfl

theorem run_read (s : GuardedStore) (path : Path) :
    (FileSystem.read path : StateM GuardedStore _).run s = (s.store.read path, s) := rfl

section

variable (h : s'.store.locate path = s.store.locate path)

include h

theorem agrees_kindOf :
    (kindOf path : ReportT BuildError (StateM GuardedStore) _).Agrees s s' := by
  have hkind : s'.store.kind path = s.store.kind path := by rw [Store.kind, h, Store.kind]
  exact agrees_granted (run_kind s path) ((run_kind s' path).trans (by rw [hkind]))

theorem agrees_isSourceFile :
    (isSourceFile path : ReportT BuildError (StateM GuardedStore) Bool).Agrees s s' :=
  (agrees_kindOf h).bind fun _ _ => .pure _ s s'

theorem agrees_readSource :
    (readSource path : ReportT BuildError (StateM GuardedStore) _).Agrees s s' := by
  have hread : s'.store.read path = s.store.read path := by rw [Store.read, h, Store.read]
  have hgranted : (granted path.text (FileSystem.read path) :
      ReportT BuildError (StateM GuardedStore) _).Agrees s s' :=
    agrees_granted (run_read s path) ((run_read s' path).trans (by rw [hread]))
  refine (ReportT.Agrees.note _ s s').bind fun _ _ => hgranted.bind fun bytes _ => ?_
  exact (ReportT.Agrees.ofReport _ s s').bind fun text _ => .pure _ s s'

end

theorem agrees_defaultOutput {input : String}
    (h : s'.store.locate (Path.ofString input) = s.store.locate (Path.ofString input)) :
    (defaultOutput input : ReportT BuildError (StateM GuardedStore) _).Agrees s s' := by
  have hname : s'.store.ownName (Path.ofString input) = s.store.ownName (Path.ofString input) := by
    rw [Store.ownName, h, Store.ownName]
  refine (agrees_kindOf h).bind fun kind _ => ?_
  split
  · exact (ReportT.Agrees.ofState (run_ownName s _)
      ((run_ownName s' _).trans (by rw [hname]))).bind fun name _ => .pure _ s s'
  · exact .pure _ s s'

theorem agrees_outputTarget {input : String}
    (h : s'.store.locate (Path.ofString input) = s.store.locate (Path.ofString input)) :
    (outputTarget input none : ReportT BuildError (StateM GuardedStore) _).Agrees s s' :=
  (agrees_defaultOutput h).bind fun out _ => .pure (Setting.given out) s s'

theorem locate_of_directory
    (h : (kindOf path : ReportT BuildError (StateM GuardedStore) _).Yields s
      (.ok (some .directory)) s) : ∃ place, s.store.locate path = .ok (place, .directory) :=
  Store.locate_of_kind_directory (congrArg Prod.fst (run_of_granted h) :)

theorem locate_of_file
    (h : (kindOf path : ReportT BuildError (StateM GuardedStore) _).Yields s
      (.ok (some .file)) s) :
    ∃ place content, s.store.locate path = .ok (place, .file content) :=
  Store.locate_of_kind_file (congrArg Prod.fst (run_of_granted h) :)

/-- The output goes beside a source file, or into a directory, and then it can be looked at. -/
theorem outputOf_defaultOutput {input out name : String} {place : Place}
    (h : (defaultOutput input : ReportT BuildError (StateM GuardedStore) _).Yields s (.ok out) s)
    (t : s.store.Target out place name) :
    s.store.OutputOf (Path.ofString input) out place name := by
  obtain ⟨kind, hkind, hrest⟩ := (inspects_kindOf steady _).exists_of_bind h
  have hending : outputSuffix ≠ "" ∧ '/' ∉ outputSuffix.toList := by decide
  split at hrest
  · obtain ⟨own, -, hrest⟩ := hrest.exists_of_bind
    cases hrest.1
    obtain ⟨front, hname, hsublist⟩ := t.exists_front hending.1 hending.2
    refine ⟨t, ⟨front, hname⟩, fun _ _ => Store.checkPath_of_sublist ?_ ?_ t.check⟩
    · rw [Path.toList_text_child, Path.toList_text_child]
      exact hsublist.append_left _
    · rw [← String.toList_inj.ne, Path.toList_text_child, hname]
      simp [outputSuffix]
  · rename_i hdirectory
    cases hrest.1
    obtain ⟨front, hname, -⟩ := Store.Target.exists_front
      (p := { Path.ofString input with parts := (Path.ofString input).parts.dropLast }) t
      hending.1 hending.2
    refine ⟨t, ⟨front, hname⟩, fun directory hlocate => absurd ?_ hdirectory⟩
    have hfound : (.ok kind, s) = (s.store.kind (Path.ofString input), s) :=
      (run_of_granted hkind).symm
    rw [Store.kind, hlocate] at hfound
    exact Except.ok.inj (congrArg Prod.fst hfound)

/-- The store with a file at a place. -/
def put (s : GuardedStore) (place : Place) (content : ByteArray) : GuardedStore :=
  { s with store := s.store.put place (.file content) }

theorem of_run_write {out text : String}
    (h : (FileSystem.write out text : StateM GuardedStore _).run s = (.ok (), s')) :
    s.refusal? out = none ∧ ∃ place name, s.store.target out = .ok (place, name) ∧
      s' = s.put (place ++ [name]) text.toUTF8 := by
  rw [run_write] at h
  cases hwrite : s.write out text with
  | error e =>
    rw [hwrite] at h
    cases h
  | ok written =>
    rw [hwrite] at h
    cases h
    exact of_write_eq_ok hwrite

/-- The same write made again changes nothing. -/
theorem run_write_put {out name text : String} {place : Place} (hrefusal : s.refusal? out = none)
    (htarget : s.store.target out = .ok (place, name)) :
    (FileSystem.write out text : StateM GuardedStore _).run (s.put (place ++ [name]) text.toUTF8) =
      (.ok (), s.put (place ++ [name]) text.toUTF8) := by
  have hagain : (s.put (place ++ [name]) text.toUTF8).write out text =
      .ok (s.put (place ++ [name]) text.toUTF8) := by
    have hstore : (s.put (place ++ [name]) text.toUTF8).store.write out text =
        .ok (s.put (place ++ [name]) text.toUTF8).store := by
      simp only [put, Store.write, Store.target_put htarget, bind, Except.bind, Store.put_put]
      rfl
    rw [write, show (s.put (place ++ [name]) text.toUTF8).refusal? out = none from hrefusal, hstore]
    rfl
  rw [run_write, hagain]

end GuardedStore

namespace Store.OutputOf

open GuardedStore

variable {s : GuardedStore} {input out name : String} {place : Place}
  (o : s.store.OutputOf (Path.ofString input) out place name)

include o

/-- A source file is not where the output goes, and stays there. -/
theorem locate_source {file : Path}
    (h : (isSourceFile file : ReportT BuildError (StateM GuardedStore) Bool).Yields s (.ok true) s)
    (content : ByteArray) : ∃ source bytes, s.store.locate file = .ok (source, .file bytes) ∧
      source ≠ place ++ [name] ∧
      (s.put (place ++ [name]) content).store.locate file = .ok (source, .file bytes) := by
  obtain ⟨hkind, hsuffix⟩ := of_isSourceFile steady h
  obtain ⟨source, bytes, hlocate⟩ := locate_of_file hkind
  have hne : source ≠ place ++ [name] := by
    rintro rfl
    obtain ⟨front, rfl⟩ := o.suffix
    have hname := Store.getLast?_of_locate hlocate
    rw [List.getLast?_concat, Option.some_inj, ← file.stem_append_suffix, hsuffix] at hname
    exact source_ne_output _ _ hname.symm
  exact ⟨source, bytes, hlocate, hne,
    Store.locate_put (by simp) o.target.hnode hlocate (fun heq => absurd heq hne) _⟩

theorem suffix_child_ne (directory : Path) : (directory.child name).suffix ≠ sourceSuffix := by
  intro hsuffix
  obtain ⟨front, hname⟩ := o.suffix
  have hcut := (directory.child name).stem_append_suffix
  rw [hsuffix, Path.name_child, hname] at hcut
  exact source_ne_output _ _ hcut

theorem isSourceAt_output (directory : Path) : isSourceAt s directory name = false := by
  refine decide_eq_false fun hsource => o.suffix_child_ne directory ?_
  have hinspects := (inspects_isSourceFile steady (directory.child name)).yields s
  exact (of_isSourceFile steady (hsource ▸ hinspects)).2

/-- In the directory where it has been written, the output is no source file. -/
theorem yields_isSourceFile_output
    (hlocate : s.store.locate (Path.ofString input) = .ok (place, .directory))
    (content : ByteArray) :
    (isSourceFile ((Path.ofString input).child name) :
      ReportT BuildError (StateM GuardedStore) Bool).Yields (s.put (place ++ [name]) content)
        (.ok false) (s.put (place ++ [name]) content) := by
  have hwritten : (s.put (place ++ [name]) content).store.kind ((Path.ofString input).child name) =
      .ok (some .file) := by
    rw [Store.kind, GuardedStore.put,
      Store.locate_child_written o.target hlocate (o.check place hlocate) content]
  have hkind := yields_kindOf ((run_kind _ _).trans (by rw [hwritten]))
  simpa [o.suffix_child_ne] using yields_isSourceFile hkind

/-- A directory holds the same names after the output has been written, but for that of the
output. -/
theorem entries_put {directory : Place}
    (hlocate : s.store.locate (Path.ofString input) = .ok (directory, .directory))
    (content : ByteArray) :
    (s.put (place ++ [name]) content).store.entries (Path.ofString input) =
      (if place = directory then [name] else []) ++
        (s.store.entries (Path.ofString input)).filter
          fun n => decide (directory ++ [n] ≠ place ++ [name]) := by
  rw [Store.entries, GuardedStore.put, Store.entries, hlocate,
    Store.locate_put (by simp) o.target.hnode hlocate (fun _ => rfl) _]
  exact s.store.namesIn_put place directory name _

theorem filter_entries_put {directory : Place}
    (hlocate : s.store.locate (Path.ofString input) = .ok (directory, .directory))
    (content : ByteArray) :
    ((s.put (place ++ [name]) content).store.entries (Path.ofString input)).filter
        (isSourceAt s (Path.ofString input)) =
      (s.store.entries (Path.ofString input)).filter (isSourceAt s (Path.ofString input)) := by
  have hfirst : (if place = directory then [name] else []).filter
      (isSourceAt s (Path.ofString input)) = [] := by
    split_ifs <;> simp [o.isSourceAt_output]
  rw [o.entries_put hlocate, List.filter_append, hfirst, List.nil_append, List.filter_filter]
  refine List.filter_congr fun n _ => ?_
  by_cases hn : directory ++ [n] = place ++ [name]
  · rw [List.singleton_inj.mp (List.append_inj_right' hn rfl), o.isSourceAt_output, Bool.false_and]
  · rw [decide_eq_true hn, Bool.and_true]

/-- The same source files are found in a directory where the output has been written. -/
theorem agrees_sourceFiles {files : List Path} {directory : Place}
    (hlocate : s.store.locate (Path.ofString input) = .ok (directory, .directory))
    (h : (sourceFiles (Path.ofString input) : ReportT BuildError (StateM GuardedStore) _).Yields s
      (.ok files) s) (content : ByteArray) :
    (sourceFiles (Path.ofString input) : ReportT BuildError (StateM GuardedStore) _).Agrees s
      (s.put (place ++ [name]) content) := by
  obtain ⟨names, hentries, hsource, hfiles⟩ := exists_names_of_sourceFiles steady h
  obtain rfl : s.store.entries (Path.ofString input) = names :=
    congrArg Prod.fst ((run_entries s _).symm.trans hentries)
  have hsource' : ∀ n ∈ (s.put (place ++ [name]) content).store.entries (Path.ofString input),
      (isSourceFile ((Path.ofString input).child n) :
        ReportT BuildError (StateM GuardedStore) Bool).Yields (s.put (place ++ [name]) content)
          (.ok (isSourceAt s (Path.ofString input) n)) (s.put (place ++ [name]) content) := by
    intro n hn
    rw [o.entries_put hlocate] at hn
    rcases List.mem_append.mp hn with hn | hn
    · split_ifs at hn with hplace
      · rw [List.mem_singleton.mp hn, o.isSourceAt_output]
        exact o.yields_isSourceFile_output (hplace ▸ hlocate) content
      · cases hn
    · rw [List.mem_filter, decide_eq_true_eq] at hn
      have hsame := Store.locate_child_put (by simp) o.target.hnode hlocate hn.2 (.file content)
      exact (agrees_isSourceFile hsame).yields (hsource n hn.1)
  have hfound := yields_sourceFiles id ((run_entries _ _).trans (by rw [List.map_id])) hsource'
  rw [o.filter_entries_put hlocate] at hfound
  exact ⟨.ok files, h, hfiles ▸ hfound⟩

/-- Where units were found, their program is still found. -/
theorem locate_program {files : List Path}
    (h : (unitFiles input : ReportT BuildError (StateM GuardedStore) _).Yields s (.ok files) s)
    (content : ByteArray) :
    (s.put (place ++ [name]) content).store.locate (Path.ofString input) =
      s.store.locate (Path.ofString input) := by
  rcases cases_of_unitFiles steady h with ⟨hkind, -⟩ | ⟨-, -, rfl⟩
  · obtain ⟨directory, hlocate⟩ := locate_of_directory hkind
    exact (Store.locate_put (by simp) o.target.hnode hlocate (fun _ => rfl) _).trans hlocate.symm
  · obtain ⟨source, bytes, hlocate, -, hlocate'⟩ := o.locate_source
      (isSourceFile_of_mem_unitFiles steady h _ List.mem_cons_self) content
    exact hlocate'.trans hlocate.symm

theorem agrees_unitFiles {files : List Path}
    (h : (unitFiles input : ReportT BuildError (StateM GuardedStore) _).Yields s (.ok files) s)
    (content : ByteArray) :
    (unitFiles input : ReportT BuildError (StateM GuardedStore) _).Agrees s
      (s.put (place ++ [name]) content) := by
  refine HackVm.agrees_unitFiles (agrees_kindOf (o.locate_program h content)) fun hdirectory => ?_
  rcases cases_of_unitFiles steady h with ⟨hkind, hfiles⟩ | ⟨hkind, -, -⟩
  · obtain ⟨directory, hlocate⟩ := locate_of_directory hkind
    exact o.agrees_sourceFiles hlocate hfiles content
  · cases hkind.1.symm.trans hdirectory.1

theorem agrees_collectUnits {files : List Path}
    (h : (unitFiles input : ReportT BuildError (StateM GuardedStore) _).Yields s (.ok files) s)
    (content : ByteArray) :
    (collectUnits input : ReportT BuildError (StateM GuardedStore) _).Agrees s
      (s.put (place ++ [name]) content) := by
  refine HackVm.agrees_collectUnits (o.agrees_unitFiles h content) fun found hfound file hfile => ?_
  obtain ⟨source, bytes, hlocate, -, hlocate'⟩ := o.locate_source
    (isSourceFile_of_mem_unitFiles steady hfound file hfile) content
  exact agrees_readSource (hlocate'.trans hlocate.symm)

/-- The units of a program keep their sources where the output is written. -/
theorem keptFrom {files : List Path} {units : List (String × String)}
    (hfiles : (unitFiles input : ReportT BuildError (StateM GuardedStore) _).Yields s
      (.ok files) s)
    (hunits : (files.mapM readSource : ReportT BuildError (StateM GuardedStore) _).Yields s
      (.ok units) s) (content : ByteArray) :
    List.Forall₂ (KeptFrom s.store (s.put (place ++ [name]) content).store (place ++ [name]))
      files units := by
  have hread := ReportT.Inspects.forall₂_of_mapM (inspects_readSource steady) hunits
  have hfound := isSourceFile_of_mem_unitFiles steady hfiles
  refine ((List.forall₂_and_left _ _).mpr ⟨hfound, hread⟩).imp fun file u ⟨hsource, hu⟩ => ?_
  obtain ⟨source, bytes, hlocate, hne, hlocate'⟩ := o.locate_source hsource content
  obtain ⟨hname, bytes', hbytes, htext⟩ := of_readSource steady hu
  have hsame := congrArg Prod.fst ((run_read s file).symm.trans hbytes)
  rw [Store.read, hlocate] at hsame
  cases hsame
  exact ⟨source, bytes, hlocate, hne, hlocate', hname, htext⟩

end Store.OutputOf

/-! ## The whole build -/

section

variable {S : Type} [FileSystem (StateM S)] {s s' : S}

theorem agrees_translatePath {settings : Settings} {input : String}
    (hunits : (collectUnits input : ReportT BuildError (StateM S) _).Agrees s s')
    (hkind : (kindOf (Path.ofString input) : ReportT BuildError (StateM S) _).Agrees s s') :
    (translatePath settings input : ReportT BuildError (StateM S) _).Agrees s s' := by
  refine hunits.bind fun units _ => ?_
  cases settings.bootstrap with
  | some choice => exact (ReportT.Agrees.pure choice s s').bind fun _ _ => .ofReport _ s s'
  | none =>
    exact hkind.bind fun kind _ => (ReportT.Agrees.pure _ s s').bind fun _ _ => .ofReport _ s s'

/-- A build succeeds if it finds where its output goes, has a text, and can write it. -/
theorem translateFile_of_write {settings : Settings} {input path text : String}
    {output : Option Setting}
    (htarget : (outputTarget input output : ReportT BuildError (StateM S) _).Yields s
      (.ok (.given path)) s)
    (htext : (translatePath settings input : ReportT BuildError (StateM S) _).Yields s
      (.ok text) s)
    (hwrite : (FileSystem.write path text : StateM S _).run s = (.ok (), s')) :
    (translateFile settings input output : ReportT BuildError (StateM S) Bool).Yields s
      (.ok true) s' := by
  have hwritten : (writeOutput text (.given path) : ReportT BuildError (StateM S) Unit).Yields s
      (.ok ()) s' := (ReportT.Yields.ofState hwrite).bind (.pure () s')
  have hbuild : (buildInto settings input (.given path) :
      ReportT BuildError (StateM S) Unit).Yields s (.ok ()) s' :=
    htext.bind (.bind (.note _ s) (hwritten.bind (.note _ s')))
  exact htarget.bind (hbuild.bind (f := fun _ => pure true) (.pure true s')).tryCatch

end

open GuardedStore

/-- A build that succeeds and was not told where its output goes writes none of its sources. The
units are the same afterwards, and the same build succeeds again and changes nothing. -/
theorem translateFile_repeatable (settings : Settings) (input : String) (s : GuardedStore)
    (h : (translateFile settings input none :
      ReportT BuildError (StateM GuardedStore) Bool).resultAt s = .ok true) :
    let build : ReportT BuildError (StateM GuardedStore) Bool := translateFile settings input none
    let after := build.stateAt s
    ∃ files units out place name,
      (unitFiles input : ReportT BuildError (StateM GuardedStore) _).resultAt s = .ok files ∧
      (outputTarget input none : ReportT BuildError (StateM GuardedStore) _).resultAt s =
        .ok (.given out) ∧
      s.store.target out = .ok (place, name) ∧
      (∀ other, other ≠ place ++ [name] → after.store.node? other = s.store.node? other) ∧
      List.Forall₂ (KeptFrom s.store after.store (place ++ [name])) files units ∧
      (collectUnits input : ReportT BuildError (StateM GuardedStore) _).resultAt s = .ok units ∧
      (collectUnits input : ReportT BuildError (StateM GuardedStore) _).resultAt after = .ok units ∧
      build.resultAt after = .ok true ∧ build.stateAt after = after := by
  intro build after
  rcases yields_translateFile GuardedStore.steady settings input none s with
    ⟨text, out, s', htext, hout, hrun, -, hafter⟩ | hfalse | ⟨e, herror, -⟩
  · obtain ⟨hrefusal, place, name, htarget, rfl⟩ := of_run_write hrun
    have hpath := (inspects_outputTarget steady input none).yields s
    have hassembly := (inspects_translatePath steady settings input).yields s
    rw [hout] at hpath
    rw [htext] at hassembly
    obtain ⟨out', hdefault, hgiven⟩ := (inspects_defaultOutput steady input).exists_of_bind hpath
    cases hgiven.1
    have o := outputOf_defaultOutput hdefault (.of_target htarget)
    -- what the first build has found
    obtain ⟨units, hunits, -⟩ := (inspects_collectUnits steady input).exists_of_bind hassembly
    have hcollect := hunits
    rw [collectUnits_eq] at hcollect
    obtain ⟨files, hfiles, hread⟩ := (inspects_unitFiles steady input).exists_of_bind hcollect
    -- the second build finds the same
    have hsame := o.agrees_collectUnits hfiles text.toUTF8
    have hprogram := o.locate_program hfiles text.toUTF8
    have hassembly' := (agrees_translatePath hsame (agrees_kindOf hprogram)).yields hassembly
    have hpath' := (agrees_outputTarget hprogram).yields hpath
    have hagain := translateFile_of_write hpath' hassembly' (run_write_put hrefusal htarget)
    rw [show after = s.put (place ++ [name]) text.toUTF8 from hafter]
    exact ⟨files, units, out, place, name, hfiles.1, hout, htarget,
      fun other hne => (s.store.node?_put (by simp) _ other).trans (if_neg hne),
      o.keptFrom hfiles hread _, hunits.1, (hsame.yields hunits).1, hagain.1, hagain.2⟩
  · cases h.symm.trans hfalse.1
  · cases h.symm.trans herror.1

/-- A directory whose name is like that of a source file, with a source, another file and a
directory. -/
def dottedDirectory : GuardedStore where
  store := ⟨[(["Prog.vm"], .directory), (["Prog.vm", "Sys.vm"], .file "function Sys.init 0".toUTF8),
    (["Prog.vm", "Sys.asm"], .file "old".toUTF8), (["Prog.vm", "Lib.vm"], .directory)], []⟩
  refusal? _ := none

/-- The first build writes something, the second changes nothing. -/
theorem translateFile_repeatable_dottedDirectory :
    let build : ReportT BuildError (StateM GuardedStore) Bool := translateFile {} "Prog.vm" none
    let after := build.stateAt dottedDirectory
    build.resultAt dottedDirectory = .ok true ∧
      after.store.node? ["Prog.vm", "Prog.vm.asm"] ≠
        dottedDirectory.store.node? ["Prog.vm", "Prog.vm.asm"] ∧
      build.resultAt after = .ok true ∧ build.stateAt after = after := by
  intro build after
  have hfirst : build.resultAt dottedDirectory = .ok true := by decide +kernel
  have hwritten : after.store.node? ["Prog.vm", "Prog.vm.asm"] ≠
      dottedDirectory.store.node? ["Prog.vm", "Prog.vm.asm"] := by decide +kernel
  obtain ⟨-, -, -, -, -, -, -, -, -, -, -, -, hsecond, hsame⟩ :=
    translateFile_repeatable {} "Prog.vm" dottedDirectory hfirst
  exact ⟨hfirst, hwritten, hsecond, hsame⟩

end HackVm
