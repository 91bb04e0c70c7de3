import HackVm.Proofs.Program.Inventions
import Mathlib

set_option autoImplicit false

/-! # Labels of functions

A label belongs to the function it stands in: its complete name is that of the function and its own
with a `$` between them. Both may have a `$` in them already, so a complete name does not tell where
the function ends. Label `y` of a function `f$x` and label `x$y` of a function `f` are both `f$x$y`,
and `LocalLabel.text_eq_iff` says that labels of different functions meet in no other way.

What follows for the labels of a program is `nodup_written_iff`: they are different just if no two
of them overlap like that and none of them is the name of a function. If no function goes on behind
the name of another one, labels of different functions stay apart. -/

namespace HackVm

/-! ## Complete names -/

/-- A label as it is written, and the function it stands in. -/
@[ext] structure LocalLabel where
  function : String
  name : String
  deriving DecidableEq, Repr

namespace LocalLabel

/-- The complete name. -/
def text (l : LocalLabel) : String := (Scope.enter l.function).qualify l.name

/-- The function of `b` goes on behind that of `a`, and the name of `a` goes on with what is added
there and ends in the name of `b`. -/
def Overlaps (a b : LocalLabel) : Prop :=
  ∃ x, b.function = a.function ++ "$" ++ x ∧ a.name = x ++ "$" ++ b.name

theorem toList_text (l : LocalLabel) :
    l.text.toList = l.function.toList ++ '$' :: l.name.toList := by
  simp [text, Scope.enter, Scope.qualify]

theorem Overlaps.text_eq {a b : LocalLabel} (h : a.Overlaps b) : a.text = b.text := by
  obtain ⟨x, hfunction, hname⟩ := h
  refine String.toList_inj.mp ?_
  simp [toList_text, hfunction, hname]

theorem Overlaps.ne {a b : LocalLabel} (h : a.Overlaps b) : a ≠ b := by
  rintro rfl
  obtain ⟨x, hfunction, -⟩ := h
  have hlength := congrArg String.length hfunction
  simp only [String.length_append] at hlength
  have hmark : "$".length = 1 := rfl
  omega

/-- Labels share a complete name only if they overlap. -/
theorem text_eq_iff {a b : LocalLabel} :
    a.text = b.text ↔ a = b ∨ a.Overlaps b ∨ b.Overlaps a := by
  constructor
  · intro h
    have hlist := congrArg String.toList h
    rw [toList_text, toList_text] at hlist
    -- both names are cut at a `$`, the one further to the right or to the left
    rcases append_cons_eq_append_cons hlist with ⟨hfunction, hname⟩ | ⟨zs, hfunction, hname⟩ |
      ⟨zs, hfunction, hname⟩
    · exact .inl (LocalLabel.ext (String.toList_inj.mp hfunction) (String.toList_inj.mp hname))
    · refine .inr (.inl ⟨String.ofList zs, ?_, ?_⟩) <;> refine String.toList_inj.mp ?_
      · simp [hfunction]
      · simp [hname]
    · refine .inr (.inr ⟨String.ofList zs, ?_, ?_⟩) <;> refine String.toList_inj.mp ?_
      · simp [hfunction]
      · simp [hname]
  · rintro (rfl | h | h)
    · rfl
    · exact h.text_eq
    · exact h.text_eq.symm

end LocalLabel

/-- The label of a function that has a given complete name. -/
def Scope.localLabel (s : Scope) (complete : String) : LocalLabel :=
  ⟨s.function, String.ofList (complete.toList.drop (s.function.length + 1))⟩

theorem Scope.localLabel_qualify (s : Scope) (name : String) :
    s.localLabel (s.qualify name) = ⟨s.function, name⟩ := by
  have hlist : (s.qualify name).toList = s.function.toList ++ '$' :: name.toList := by
    simp [qualify]
  have hdrop : (s.qualify name).toList.drop (s.function.length + 1) = name.toList := by
    rw [hlist, ← String.length_toList, List.drop_length_add_append]
    rfl
  rw [localLabel, hdrop, String.ofList_toList]

/-! ## Labels in a row of commands -/

namespace Command

/-- The complete name of the label that a command puts down. -/
def label? : Command → Option String
  | .label name => some name
  | _ => none

/-- The complete name of the label that a command jumps to. -/
def jumpTarget? : Command → Option String
  | .goto name | .ifGoto name => some name
  | _ => none

end Command

/-- The labels that commands name, with the functions the commands stand in. -/
def localLabels (name? : Command → Option String) : Option Scope → List Command → List LocalLabel
  | _, [] => []
  | scope, c :: cs =>
    (scope.bind fun s => (name? c).map s.localLabel).toList ++
      localLabels name? (c.scopeAfter scope) cs

/-- The commands of a text. -/
def commandsIn (unit source : String) : List Command :=
  (Reader.ofString source unit).readAll.statements.map Statement.command

/-- What commands name are labels of the function they stand in. -/
def NamesLocal (name? : Command → Option String) : Prop :=
  ∀ {i : Instruction} {scope scope' : Option Scope} {c : Command} {name : String},
    i.resolve scope = .ok (c, scope') → name? c = some name →
      ∃ s label, scope = some s ∧ name = s.qualify label

theorem namesLocal_label? : NamesLocal Command.label? := by
  intro i scope scope' c name hresolve hname
  cases i with
  | label l =>
    cases scope with
    | none => cases hresolve
    | some s =>
      cases hresolve
      exact ⟨s, l, rfl, (Option.some.inj hname).symm⟩
  | _ => cases scope <;> cases hresolve <;> cases hname

theorem namesLocal_jumpTarget? : NamesLocal Command.jumpTarget? := by
  intro i scope scope' c name hresolve hname
  cases i with
  | goto l | ifGoto l =>
    cases scope with
    | none => cases hresolve
    | some s =>
      cases hresolve
      exact ⟨s, l, rfl, (Option.some.inj hname).symm⟩
  | _ => cases scope <;> cases hresolve <;> cases hname

/-- The complete names of the labels are what the commands name. -/
theorem map_text_localLabels {name? : Command → Option String} (hlocal : NamesLocal name?)
    {scope : Option Scope} {cs : List Command} (h : Scoped scope cs) :
    (localLabels name? scope cs).map LocalLabel.text = cs.filterMap name? := by
  induction h with
  | nil scope => rfl
  | @cons scope scope' i c cs named resolved others ih =>
    rw [localLabels, List.map_append, Instruction.scopeAfter_of_resolve resolved, ih]
    cases hname : name? c with
    | none =>
      rw [List.filterMap_cons_none hname]
      cases scope <;> rfl
    | some name =>
      obtain ⟨s, label, rfl, rfl⟩ := hlocal resolved hname
      rw [List.filterMap_cons_some hname, Option.bind_some, Option.map_some,
        Scope.localLabel_qualify]
      rfl

/-- The function around what follows a command is the one that the command declares, or the one
around the command. -/
theorem Command.function_of_scopeAfter {c : Command} {scope : Option Scope} {s : Scope}
    (h : c.scopeAfter scope = some s) :
    c.declares? = some s.function ∨ ∃ s', scope = some s' ∧ s'.function = s.function := by
  cases c with
  | function name locals =>
    cases h
    exact .inl rfl
  | call callee arguments back =>
    obtain ⟨s', hs', rfl⟩ := Option.map_eq_some_iff.mp h
    exact .inr ⟨s', hs', rfl⟩
  | _ => exact .inr ⟨s, h, rfl⟩

/-- Labels belong to functions that are declared, or to the one around all. -/
theorem function_of_mem_localLabels {name? : Command → Option String} {scope : Option Scope}
    {cs : List Command} {l : LocalLabel} (h : l ∈ localLabels name? scope cs) :
    (∃ s, scope = some s ∧ s.function = l.function) ∨ l.function ∈ declarationsOf cs := by
  induction cs generalizing scope with
  | nil => cases h
  | cons c cs ih =>
    rw [localLabels] at h
    rcases List.mem_append.mp h with hfirst | hrest
    · obtain ⟨s, rfl, hs⟩ := Option.bind_eq_some_iff.mp (Option.mem_toList.mp hfirst)
      obtain ⟨name, -, rfl⟩ := Option.map_eq_some_iff.mp hs
      exact .inl ⟨s, rfl, rfl⟩
    rcases ih hrest with ⟨s, hs, hfunction⟩ | hdeclared
    · rcases Command.function_of_scopeAfter hs with hdeclares | ⟨s', hs', hfunction'⟩
      · right
        rw [declarationsOf_cons, hdeclares, hfunction]
        exact List.mem_cons_self
      · exact .inl ⟨s', hs', hfunction'.trans hfunction⟩
    · exact .inr (mem_declarationsOf_cons hdeclared)

/-! ## Written labels -/

/-- The labels in the code of a command that the command is written for. -/
def Coded.written (c : Coded) : List String :=
  (labelsOf c.body).filter fun l => decide (c.command.writtenLabel? = some l)

theorem written_eq {g g' : Generator} {c : Coded}
    (h : g.lower c.command = .ok (c.body, g')) : c.written = c.command.writtenLabel?.toList := by
  obtain ⟨unit, command, body⟩ := c
  cases command with
  | label name =>
    cases h
    simp [Coded.written, labelsOf, Line.defines?, Command.writtenLabel?]
  | function name locals =>
    obtain ⟨hbody, -⟩ := Prod.mk.inj (Except.ok.inj h)
    have hlabels : labelsOf (Sequence.function name locals) =
        [name, Sequence.localsLoop name, Sequence.localsEnd name] := rfl
    rw [Coded.written, ← hbody, hlabels]
    simp [Command.writtenLabel?, (localsLoop_ne name).symm, (localsEnd_ne name).symm]
  | _ => exact List.filter_eq_nil_iff.mpr fun l _ => by simp [Command.writtenLabel?]

/-- Written labels are the names of functions and those of labels. -/
theorem perm_writtenLabels (cs : List Command) :
    (cs.filterMap Command.writtenLabel?).Perm
      (declarationsOf cs ++ cs.filterMap Command.label?) := by
  induction cs with
  | nil => exact .nil
  | cons c cs ih =>
    cases c with
    | function name locals => exact ih.cons name
    | label name => exact (ih.cons name).trans List.perm_middle.symm
    | _ => exact ih

/-! ## Programs -/

/-- The functions that a program declares. -/
def programFunctions (units : List (String × String)) : List String :=
  units.flatMap fun u => declaredIn u.1 u.2

/-- The labels that the commands of a program name. -/
def programLocals (name? : Command → Option String) (units : List (String × String)) :
    List LocalLabel :=
  units.flatMap fun u => localLabels name? none (commandsIn u.1 u.2)

/-- The labels that a program puts down. -/
def programLabels (units : List (String × String)) : List LocalLabel :=
  programLocals Command.label? units

/-- The labels that a program jumps to. -/
def programJumps (units : List (String × String)) : List LocalLabel :=
  programLocals Command.jumpTarget? units

theorem function_mem_programFunctions {name? : Command → Option String}
    {units : List (String × String)} {l : LocalLabel} (h : l ∈ programLocals name? units) :
    l.function ∈ programFunctions units := by
  obtain ⟨u, hu, hl⟩ := List.mem_flatMap.mp h
  refine List.mem_flatMap.mpr ⟨u, hu, ?_⟩
  rcases function_of_mem_localLabels hl with ⟨s, hs, -⟩ | hdeclared
  · cases hs
  · exact hdeclared

theorem commandsIn_of_readUnit {unit source : String} {statements : List Statement}
    (h : readUnit source unit = .ok statements) :
    commandsIn unit source = statements.map Statement.command := by
  rw [commandsIn, (readUnit_eq_ok_iff.mp h).2]

theorem IsUnitCode.commands {scope : StaticScope} {unit source : String} {codes : List Coded}
    (h : IsUnitCode scope unit source codes) :
    codes.map Coded.command = commandsIn unit source := by
  obtain ⟨statements, hread, hcommands, -⟩ := h
  rw [hcommands, commandsIn_of_readUnit hread]

namespace IsProgramCode

variable {scope : StaticScope} {units : List (String × String)} {parts : List (List Coded)}

theorem map_text_programLocals {name? : Command → Option String} (hlocal : NamesLocal name?)
    (h : IsProgramCode scope units parts) :
    (programLocals name? units).map LocalLabel.text =
      (parts.flatten.map Coded.command).filterMap name? := by
  induction h with
  | nil => rfl
  | @cons u codes units parts hunit hothers ih =>
    have hfirst := map_text_localLabels hlocal hunit.scoped
    rw [programLocals] at ih ⊢
    rw [List.flatMap_cons, List.map_append, ih, List.flatten_cons, List.map_append,
      List.filterMap_append, ← hfirst, hunit.commands]

/-- The labels that the code of a program is written for. -/
theorem flatMap_written (h : IsProgramCode scope units parts) :
    parts.flatten.flatMap Coded.written =
      (parts.flatten.map Coded.command).filterMap Command.writtenLabel? := by
  have hcodes : ∀ codes : List Coded,
      (∀ c ∈ codes, ∃ g g' : Generator, g.lower c.command = .ok (c.body, g')) →
        codes.flatMap Coded.written =
          (codes.map Coded.command).filterMap Command.writtenLabel? := by
    intro codes hlower
    induction codes with
    | nil => rfl
    | cons c codes ih =>
      obtain ⟨g, g', hc⟩ := hlower c List.mem_cons_self
      rw [List.flatMap_cons, written_eq hc, ih fun d hd => hlower d (List.mem_cons_of_mem c hd)]
      cases hw : c.command.writtenLabel? <;> simp [hw]
  refine hcodes _ fun c hc => ?_
  obtain ⟨g, g', -, -, -, hlower, -⟩ := h.exists_of_mem c hc
  exact ⟨g, g', hlower⟩

theorem perm_written (h : IsProgramCode scope units parts) :
    (parts.flatten.flatMap Coded.written).Perm
      (programFunctions units ++ (programLabels units).map LocalLabel.text) := by
  have hlabels := h.map_text_programLocals namesLocal_label?
  rw [h.flatMap_written, programLabels, hlabels, programFunctions, ← h.declarations]
  exact perm_writtenLabels _

/-- A written label is a function or a label of one. -/
theorem mem_written_iff (h : IsProgramCode scope units parts) {s : String} :
    s ∈ parts.flatten.flatMap Coded.written ↔
      s ∈ programFunctions units ∨ ∃ a ∈ programLabels units, a.text = s := by
  rw [h.perm_written.mem_iff, List.mem_append, List.mem_map]

end IsProgramCode

/-! ## Labels stay apart -/

/-- No function goes on behind the name of a function with a `$`. -/
def Unextended (functions : List String) : Prop :=
  ∀ f ∈ functions, ∀ g ∈ functions, ∀ x, g ≠ f ++ "$" ++ x

/-- In names without a `$` nothing stands behind one. -/
theorem unextended_of_not_mem {functions : List String} (h : ∀ f ∈ functions, '$' ∉ f.toList) :
    Unextended functions := by
  rintro f - g hg x rfl
  exact h _ hg (by simp)

theorem Unextended.not_overlaps {units : List (String × String)}
    (h : Unextended (programFunctions units)) {name? name?' : Command → Option String}
    {a b : LocalLabel} (ha : a ∈ programLocals name? units) (hb : b ∈ programLocals name?' units) :
    ¬ a.Overlaps b := by
  rintro ⟨x, hfunction, -⟩
  exact h _ (function_mem_programFunctions ha) _ (function_mem_programFunctions hb) x hfunction

theorem Unextended.text_not_mem {units : List (String × String)}
    (h : Unextended (programFunctions units)) {name? : Command → Option String}
    {a : LocalLabel} (ha : a ∈ programLocals name? units) :
    a.text ∉ programFunctions units :=
  fun hmem => h _ (function_mem_programFunctions ha) _ hmem a.name rfl

/-- In a program that declares each function once, and each label once in its function, the
functions and the complete names of the labels are all different just if no label has the name of a
function and no two labels overlap. Commands jump to labels of the function they stand in; if no
function goes on behind another one, they find those labels or none. -/
theorem nodup_written_iff {settings : Settings} {units : List (String × String)}
    {bootstrap : Bool} {text : String} (hfunctions : (programFunctions units).Nodup)
    (hlabels : (programLabels units).Nodup)
    (h : (translateUnits settings units bootstrap).result = .ok text) :
    ∃ scope parts, StaticScope.ofSetting settings.staticScope = .ok scope ∧
      IsProgramCode scope units parts ∧
      text = Block.text settings.comments
        (startBlocks settings.entry.text bootstrap ++ parts.flatten.map Coded.block) ∧
      ((parts.flatten.flatMap Coded.written).Nodup ↔
        ∀ a ∈ programLabels units, a.text ∉ programFunctions units ∧
          ∀ b ∈ programLabels units, ¬ a.Overlaps b) ∧
      (parts.flatten.map Coded.command).filterMap Command.jumpTarget? =
        (programJumps units).map LocalLabel.text ∧
      (∀ j ∈ programJumps units, j.text ∈ parts.flatten.flatMap Coded.written ↔
        j.text ∈ programFunctions units ∨
          ∃ a ∈ programLabels units, a = j ∨ a.Overlaps j ∨ j.Overlaps a) ∧
      (Unextended (programFunctions units) →
        (parts.flatten.flatMap Coded.written).Nodup ∧
        ∀ j ∈ programJumps units, j.text ∈ parts.flatten.flatMap Coded.written →
          j ∈ programLabels units) := by
  obtain ⟨scope, parts, hscope, hparts, -, htext⟩ := translateUnits_eq_ok_iff.mp h
  have hnodup : (parts.flatten.flatMap Coded.written).Nodup ↔
      ∀ a ∈ programLabels units, a.text ∉ programFunctions units ∧
        ∀ b ∈ programLabels units, ¬ a.Overlaps b := by
    rw [hparts.perm_written.nodup_iff, List.nodup_append, List.nodup_map_iff_inj_on hlabels]
    constructor
    · rintro ⟨-, hinj, hapart⟩ a ha
      refine ⟨fun hmem => hapart _ hmem _ (List.mem_map_of_mem ha) rfl, fun b hb hover => ?_⟩
      exact hover.ne (hinj a ha b hb hover.text_eq)
    · intro hall
      refine ⟨hfunctions, fun a ha b hb htexts => ?_, fun f hf s hs heq => ?_⟩
      · rcases LocalLabel.text_eq_iff.mp htexts with heq | hover | hover
        · exact heq
        · exact absurd hover ((hall a ha).2 b hb)
        · exact absurd hover ((hall b hb).2 a ha)
      · obtain ⟨a, ha, rfl⟩ := List.mem_map.mp hs
        exact (hall a ha).1 (heq ▸ hf)
  have hjumps : ∀ j ∈ programJumps units, j.text ∈ parts.flatten.flatMap Coded.written ↔
      j.text ∈ programFunctions units ∨
        ∃ a ∈ programLabels units, a = j ∨ a.Overlaps j ∨ j.Overlaps a := by
    intro j _
    rw [hparts.mem_written_iff]
    exact or_congr_right (exists_congr fun a => and_congr_right fun _ => LocalLabel.text_eq_iff)
  refine ⟨scope, parts, hscope, hparts, htext, hnodup,
    (hparts.map_text_programLocals namesLocal_jumpTarget?).symm, hjumps,
    fun hunextended => ⟨?_, ?_⟩⟩
  · rw [hnodup]
    exact fun a ha => ⟨hunextended.text_not_mem ha, fun b hb => hunextended.not_overlaps ha hb⟩
  · intro j hj hwritten
    rcases (hjumps j hj).mp hwritten with hfunction | ⟨a, ha, rfl | hover | hover⟩
    · exact absurd hfunction (hunextended.text_not_mem hj)
    · exact ha
    · exact absurd hover (hunextended.not_overlaps ha hj)
    · exact absurd hover (hunextended.not_overlaps hj ha)

/-- The code of a unit is that of the program of this unit alone. -/
theorem IsUnitCode.program {unit source : String} {codes : List Coded}
    (h : IsUnitCode .unit unit source codes) :
    IsProgramCode .unit [(unit, source)] [codes] ∧
      (translateUnits {} [(unit, source)] false).result =
        .ok (Block.text true (codes.map Coded.block)) := by
  have hparts : IsProgramCode .unit [(unit, source)] [codes] := .cons h .nil
  refine ⟨hparts, ?_⟩
  rw [@translateUnits_eq_ok_iff {} _ false _ |>.mpr ⟨.unit, [codes], rfl, hparts, by simp, rfl⟩,
    List.flatten_singleton]
  rfl

/-- A program of one unit that can be read and lowered, with what it declares. -/
theorem exists_program_of_readUnit {unit source : String} {statements : List Statement}
    {blocks : List Block} (hread : readUnit source unit = .ok statements)
    (hlower : lowerStatements unit (.enter .unit unit) statements = .ok blocks) :
    ∃ codes, IsProgramCode .unit [(unit, source)] [codes] ∧
      (translateUnits {} [(unit, source)] false).result =
        .ok (Block.text true (codes.map Coded.block)) ∧
      codes.map Coded.command = statements.map Statement.command ∧
      codes.flatMap Coded.written =
        (statements.map Statement.command).filterMap Command.writtenLabel? ∧
      programFunctions [(unit, source)] = declarationsOf (statements.map Statement.command) ∧
      ∀ name?, programLocals name? [(unit, source)] =
        localLabels name? none (statements.map Statement.command) := by
  have hcommands := commandsIn_of_readUnit hread
  obtain ⟨⟨codes, hcodes⟩, hdeclared⟩ := exists_isUnitCode hread hlower
  obtain ⟨hparts, hresult⟩ := hcodes.program
  have hcodes := hcodes.commands.trans hcommands
  refine ⟨codes, hparts, hresult, hcodes, ?_, ?_, fun name? => ?_⟩
  · have hwritten := hparts.flatMap_written
    rwa [List.flatten_singleton, hcodes] at hwritten
  · rw [programFunctions, List.flatMap_singleton, hdeclared]
  · rw [programLocals, List.flatMap_singleton, hcommands]

/-- The same label in two functions. -/
def sameLabel : String := "function A.f 0 goto END label END function B.g 0 goto END label END"

/-- Two functions keep their labels of the same name, and their jumps to them. -/
theorem nodup_written_sameLabel :
    ∃ scope parts, IsProgramCode scope [("Main", sameLabel)] parts ∧
      (parts.flatten.flatMap Coded.written).Nodup ∧
      programJumps [("Main", sameLabel)] = programLabels [("Main", sameLabel)] := by
  have hread : readUnit sameLabel "Main" = .ok
      [⟨.function "A.f" 0, ⟨0, 0⟩⟩, ⟨.goto "A.f$END", ⟨0, 15⟩⟩, ⟨.label "A.f$END", ⟨0, 24⟩⟩,
        ⟨.function "B.g" 0, ⟨0, 34⟩⟩, ⟨.goto "B.g$END", ⟨0, 49⟩⟩,
        ⟨.label "B.g$END", ⟨0, 58⟩⟩] := by cbv
  obtain ⟨codes, -, hresult, -, -, hfunctions, hlocals⟩ := exists_program_of_readUnit hread rfl
  have hlabels : programLabels [("Main", sameLabel)] = [⟨"A.f", "END"⟩, ⟨"B.g", "END"⟩] :=
    (hlocals _).trans (by decide)
  have hjumps : programJumps [("Main", sameLabel)] = [⟨"A.f", "END"⟩, ⟨"B.g", "END"⟩] :=
    (hlocals _).trans (by decide)
  obtain ⟨scope, parts, -, hparts, -, -, -, -, hapart⟩ :=
    nodup_written_iff (by rw [hfunctions]; decide) (by rw [hlabels]; decide) hresult
  refine ⟨scope, parts, hparts, (hapart ?_).1, hjumps.trans hlabels.symm⟩
  rw [hfunctions]
  exact unextended_of_not_mem (by decide)

/-- A label of a function, and one of another function that goes on behind the first. -/
def overlappingLabels : String := "function F 0 label A$B function F$A 0 label B goto B"

/-- Labels of two functions have the same complete name, though each function is declared once and
each label once in its function. -/
theorem not_nodup_written_overlappingLabels :
    (programFunctions [("Main", overlappingLabels)]).Nodup ∧
      (programLabels [("Main", overlappingLabels)]).Nodup ∧
      ∃ codes, IsProgramCode .unit [("Main", overlappingLabels)] [codes] ∧
        (translateUnits {} [("Main", overlappingLabels)] false).result =
          .ok (Block.text true (codes.map Coded.block)) ∧
        codes.flatMap Coded.written = ["F", "F$A$B", "F$A", "F$A$B"] ∧
        ¬ (codes.flatMap Coded.written).Nodup := by
  have hread : readUnit overlappingLabels "Main" = .ok
      [⟨.function "F" 0, ⟨0, 0⟩⟩, ⟨.label "F$A$B", ⟨0, 13⟩⟩, ⟨.function "F$A" 0, ⟨0, 23⟩⟩,
        ⟨.label "F$A$B", ⟨0, 38⟩⟩, ⟨.goto "F$A$B", ⟨0, 46⟩⟩] := by cbv
  obtain ⟨codes, hparts, hresult, -, hwritten, hfunctions, hlocals⟩ :=
    exists_program_of_readUnit hread rfl
  have hlabels : programLabels [("Main", overlappingLabels)] = [⟨"F", "A$B"⟩, ⟨"F$A", "B"⟩] :=
    (hlocals _).trans (by decide)
  refine ⟨by rw [hfunctions]; decide, by rw [hlabels]; decide, codes, hparts, hresult, hwritten, ?_⟩
  rw [hwritten]
  decide

end HackVm
