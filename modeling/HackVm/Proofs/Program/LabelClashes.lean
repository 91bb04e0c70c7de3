import HackVm.Proofs.Program.Labels
import HackVm.Proofs.Program.LocalLabels

set_option autoImplicit false

/-! # Invented labels among written ones

A label of a function is the function and a name with a `$` between them, an invented label an owner
and a kind. Nothing else tells the two apart: who names a label `ret.0` in a function that calls, or
a function `F$locals.end` beside a function `F`, writes what is invented as well.

`invented_mem_written_iff` says which invented labels are also written. The one of the start never
is, since its owner begins with `$`, and none is in a program whose names do not end in a kind. -/

namespace HackVm

/-! ## All labels of a program -/

theorem Coded.perm_labelsOf (c : Coded) : (labelsOf c.body).Perm (c.written ++ c.invented) := by
  have hperm := List.filter_append_perm (fun l => decide (c.command.writtenLabel? = some l))
    (labelsOf c.body)
  simp only [← decide_not] at hperm
  exact hperm.symm

theorem perm_labels (codes : List Coded) :
    (Block.labels (codes.map Coded.block)).Perm
      (codes.flatMap Coded.written ++ codes.flatMap Coded.invented) := by
  rw [Block.labels, List.flatMap_map]
  exact (List.Perm.flatMap_left codes fun c _ => c.perm_labelsOf).trans
    (List.flatMap_append_perm codes Coded.written Coded.invented).symm

/-- The label that is invented for the start of a program. -/
def startInvention : InventedLabel := ⟨Bootstrap.function, .returnAddress 0⟩

/-- What is invented for a program, its start included. -/
def programInventions (bootstrap : Bool) (units : List (String × String)) : List InventedLabel :=
  (if bootstrap then [startInvention] else []) ++
    units.flatMap fun u => inventions u.1 none 0 (commandsIn u.1 u.2)

theorem labels_startBlocks (entry : String) (bootstrap : Bool) :
    Block.labels (startBlocks entry bootstrap) =
      (if bootstrap then [startInvention] else []).map InventedLabel.text := by
  cases bootstrap <;> rfl

namespace IsProgramCode

variable {scope : StaticScope} {units : List (String × String)} {parts : List (List Coded)}

theorem flatMap_invented (h : IsProgramCode scope units parts) :
    parts.flatten.flatMap Coded.invented =
      (units.flatMap fun u => inventions u.1 none 0 (commandsIn u.1 u.2)).map
        InventedLabel.text := by
  induction h with
  | nil => rfl
  | @cons u codes units parts hunit hothers ih =>
    have hcommands := hunit.commands
    have hscoped := hunit.scoped
    obtain ⟨-, -, -, hlowered⟩ := hunit
    rw [List.flatten_cons, List.flatMap_append, List.flatMap_cons, List.map_append, ih,
      HackVm.flatMap_invented hlowered hscoped, hcommands]
    rfl

/-- The labels of a program are written or invented. -/
theorem perm_labels (h : IsProgramCode scope units parts) (entry : String) (bootstrap : Bool) :
    (Block.labels (startBlocks entry bootstrap ++ parts.flatten.map Coded.block)).Perm
      (parts.flatten.flatMap Coded.written ++
        (programInventions bootstrap units).map InventedLabel.text) := by
  have happend : Block.labels (startBlocks entry bootstrap ++ parts.flatten.map Coded.block) =
      Block.labels (startBlocks entry bootstrap) ++
        Block.labels (parts.flatten.map Coded.block) := List.flatMap_append
  rw [happend, labels_startBlocks, programInventions, List.map_append, ← h.flatMap_invented]
  refine ((HackVm.perm_labels _).append_left _).trans ?_
  rw [← List.append_assoc, ← List.append_assoc]
  exact List.perm_append_comm.append_right _

end IsProgramCode

/-! ## Clashes -/

/-- An invented label as if it were written: its owner as a function, its kind as a name. -/
def InventedLabel.asLocal (l : InventedLabel) : LocalLabel := ⟨l.owner, l.kind.text⟩

theorem InventedLabel.text_asLocal (l : InventedLabel) : l.asLocal.text = l.text := by
  refine String.toList_inj.mp ?_
  simp [LocalLabel.toList_text, InventedLabel.text, asLocal]

/-- No function goes on behind the owner of an invented label and shares the label, since the kind
would have to have a `$` in it. -/
theorem InventedLabel.not_overlaps (l : InventedLabel) (a : LocalLabel) :
    ¬ l.asLocal.Overlaps a := by
  rintro ⟨x, -, hkind⟩
  refine l.kind.not_mem_text ?_
  rw [show l.kind.text = x ++ "$" ++ a.name from hkind]
  simp

theorem InventedLabel.text_eq_iff (l : InventedLabel) {a : LocalLabel} :
    a.text = l.text ↔ a = l.asLocal ∨ a.Overlaps l.asLocal := by
  rw [← l.text_asLocal, LocalLabel.text_eq_iff]
  simp [l.not_overlaps a]

/-- A name that is a kind of invented labels, or ends in one behind a `$`. -/
def EndsInKind (name : String) : Prop :=
  ∃ k : LabelKind, name = k.text ∨ ∃ x, name = x ++ "$" ++ k.text

theorem LabelKind.dot_mem_text (k : LabelKind) : '.' ∈ k.text.toList := by
  cases k <;> simp [LabelKind.text]

theorem not_endsInKind_of_not_mem {name : String} (h : '.' ∉ name.toList) : ¬ EndsInKind name := by
  rintro ⟨k, rfl | ⟨x, rfl⟩⟩
  · exact h k.dot_mem_text
  · refine h ?_
    rw [String.toList_append]
    exact List.mem_append_right _ k.dot_mem_text

namespace IsProgramCode

variable {scope : StaticScope} {units : List (String × String)} {parts : List (List Coded)}

theorem mem_written_iff_of_invented (h : IsProgramCode scope units parts) (l : InventedLabel) :
    l.text ∈ parts.flatten.flatMap Coded.written ↔
      l.text ∈ programFunctions units ∨
        ∃ a ∈ programLabels units, a = l.asLocal ∨ a.Overlaps l.asLocal := by
  rw [h.mem_written_iff]
  exact or_congr_right (exists_congr fun a => and_congr_right fun _ => l.text_eq_iff)

/-- Whatever is written begins with a letter. -/
theorem exists_head_of_mem_written (h : IsProgramCode scope units parts) {s : String}
    (hs : s ∈ parts.flatten.flatMap Coded.written) :
    ∃ c cs, s.toList = c :: cs ∧ c.isAlpha = true := by
  rcases h.mem_written_iff.mp hs with hfunction | ⟨a, ha, rfl⟩
  · obtain ⟨c, cs, hlist, hc, -⟩ := h.isName_of_mem hfunction
    exact ⟨c, cs, hlist, hc⟩
  · obtain ⟨c, cs, hlist, hc, -⟩ := h.isName_of_mem (function_mem_programFunctions ha)
    refine ⟨c, cs ++ '$' :: a.name.toList, ?_, hc⟩
    rw [LocalLabel.toList_text, hlist, List.cons_append]

theorem startInvention_not_mem_written (h : IsProgramCode scope units parts) :
    startInvention.text ∉ parts.flatten.flatMap Coded.written := by
  intro hmem
  obtain ⟨c, cs, hlist, hc⟩ := h.exists_head_of_mem_written hmem
  -- no letter stands at the beginning of this label
  have hstart : startInvention.text.toList = '$' :: "bootstrap$ret.0".toList := by decide
  rw [hstart] at hlist
  obtain ⟨rfl, -⟩ := List.cons.inj hlist
  exact absurd hc (by decide)

end IsProgramCode

/-- All labels of a program are written or invented. An invented label is written as well just if
it is the name of a function, or a label of its owner with the name of its kind, or if a label
overlaps that one; the label of the start is not. No label is both if no name of a function or a
label ends in a kind. -/
theorem invented_mem_written_iff {settings : Settings} {units : List (String × String)}
    {bootstrap : Bool} {text : String}
    (h : (translateUnits settings units bootstrap).result = .ok text) :
    ∃ scope parts, StaticScope.ofSetting settings.staticScope = .ok scope ∧
      IsProgramCode scope units parts ∧
      text = Block.text settings.comments
        (startBlocks settings.entry.text bootstrap ++ parts.flatten.map Coded.block) ∧
      (Block.labels (startBlocks settings.entry.text bootstrap ++
          parts.flatten.map Coded.block)).Perm
        (parts.flatten.flatMap Coded.written ++
          (programInventions bootstrap units).map InventedLabel.text) ∧
      (∀ l ∈ programInventions bootstrap units, l.text ∈ parts.flatten.flatMap Coded.written ↔
        l.text ∈ programFunctions units ∨
          ∃ a ∈ programLabels units, a = l.asLocal ∨ a.Overlaps l.asLocal) ∧
      startInvention.text ∉ parts.flatten.flatMap Coded.written ∧
      ((∀ f ∈ programFunctions units, ¬ EndsInKind f) →
        (∀ a ∈ programLabels units, ¬ EndsInKind a.name) →
        ∀ l ∈ programInventions bootstrap units,
          l.text ∉ parts.flatten.flatMap Coded.written) := by
  obtain ⟨scope, parts, hscope, hparts, -, htext⟩ := translateUnits_eq_ok_iff.mp h
  refine ⟨scope, parts, hscope, hparts, htext, hparts.perm_labels _ bootstrap,
    fun l _ => hparts.mem_written_iff_of_invented l, hparts.startInvention_not_mem_written,
    fun hfunctions hlabels l _ hwritten => ?_⟩
  rcases (hparts.mem_written_iff_of_invented l).mp hwritten with
    hfunction | ⟨a, ha, rfl | ⟨x, -, hname⟩⟩
  · exact hfunctions _ hfunction ⟨l.kind, .inr ⟨l.owner, rfl⟩⟩
  · exact hlabels _ ha ⟨l.kind, .inl rfl⟩
  · exact hlabels a ha ⟨l.kind, .inr ⟨x, hname⟩⟩

theorem programInventions_of_readUnit {unit source : String} {statements : List Statement}
    (h : readUnit source unit = .ok statements) :
    programInventions false [(unit, source)] =
      inventions unit none 0 (statements.map Statement.command) := by
  rw [programInventions, List.flatMap_singleton, commandsIn_of_readUnit h]
  rfl

/-- A function that has a label, calls and compares. -/
def plainLabel : String := "function Main 0 label END call Main 0 eq"

/-- What is invented for a function with a plain label is not written. -/
theorem invented_not_mem_written_plainLabel :
    ∃ scope parts, IsProgramCode scope [("Main", plainLabel)] parts ∧
      programInventions false [("Main", plainLabel)] =
        [⟨"Main", .localsLoop⟩, ⟨"Main", .localsEnd⟩, ⟨"Main", .returnAddress 0⟩,
          ⟨"Main", .comparison 1⟩] ∧
      ∀ l ∈ programInventions false [("Main", plainLabel)],
        l.text ∉ parts.flatten.flatMap Coded.written := by
  have hread : readUnit plainLabel "Main" = .ok
      [⟨.function "Main" 0, ⟨0, 0⟩⟩, ⟨.label "Main$END", ⟨0, 16⟩⟩,
        ⟨.call "Main" 0 "Main$ret.0", ⟨0, 26⟩⟩, ⟨.arithmetic .eq, ⟨0, 38⟩⟩] := by cbv
  obtain ⟨codes, -, hresult, -, -, hfunctions, hlocals⟩ := exists_program_of_readUnit hread rfl
  have hlabels : programLabels [("Main", plainLabel)] = [⟨"Main", "END"⟩] :=
    (hlocals _).trans (by decide)
  obtain ⟨scope, parts, -, hparts, -, -, -, -, hapart⟩ := invented_mem_written_iff hresult
  refine ⟨scope, parts, hparts, programInventions_of_readUnit hread, hapart ?_ ?_⟩
  · rw [hfunctions]
    intro f hf
    obtain rfl := List.mem_singleton.mp hf
    exact not_endsInKind_of_not_mem (by decide)
  · rw [hlabels]
    intro a ha
    obtain rfl := List.mem_singleton.mp ha
    exact not_endsInKind_of_not_mem (by decide)

/-- A function with labels that have the names of kinds, and a call and a comparison. -/
def kindLabels : String := "function Main 0 label ret.0 label locals.end label cmp.1 call Main 0 eq"

/-- The labels behind a call, behind the locals of a function and behind a comparison are written
too, though each unit and each function is there once and each label once in its function. -/
theorem invented_mem_written_kindLabels :
    ([("Main", kindLabels)].map Prod.fst).Nodup ∧
      (programFunctions [("Main", kindLabels)]).Nodup ∧
      (programLabels [("Main", kindLabels)]).Nodup ∧
      ∃ codes, IsProgramCode .unit [("Main", kindLabels)] [codes] ∧
        (translateUnits {} [("Main", kindLabels)] false).result =
          .ok (Block.text true (codes.map Coded.block)) ∧
        ∀ k ∈ [LabelKind.returnAddress 0, .localsEnd, .comparison 1],
          ⟨"Main", k⟩ ∈ programInventions false [("Main", kindLabels)] ∧
            InventedLabel.text ⟨"Main", k⟩ ∈ codes.flatMap Coded.written := by
  have hread : readUnit kindLabels "Main" = .ok
      [⟨.function "Main" 0, ⟨0, 0⟩⟩, ⟨.label "Main$ret.0", ⟨0, 16⟩⟩,
        ⟨.label "Main$locals.end", ⟨0, 28⟩⟩, ⟨.label "Main$cmp.1", ⟨0, 45⟩⟩,
        ⟨.call "Main" 0 "Main$ret.0", ⟨0, 57⟩⟩, ⟨.arithmetic .eq, ⟨0, 69⟩⟩] := by cbv
  obtain ⟨codes, hparts, hresult, -, hwritten, hfunctions, hlocals⟩ :=
    exists_program_of_readUnit hread rfl
  have hlabels : programLabels [("Main", kindLabels)] =
      [⟨"Main", "ret.0"⟩, ⟨"Main", "locals.end"⟩, ⟨"Main", "cmp.1"⟩] :=
    (hlocals _).trans (by decide)
  refine ⟨by decide, by rw [hfunctions]; decide, by rw [hlabels]; decide, codes, hparts, hresult,
    ?_⟩
  rw [programInventions_of_readUnit hread, hwritten]
  decide

end HackVm
