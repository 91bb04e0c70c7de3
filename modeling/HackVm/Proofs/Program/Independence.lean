import HackVm.Proofs.Program.LocalLabels

set_option autoImplicit false

/-! # Units are translated independently

A program is translated with one generator that goes from unit to unit. As it numbers comparisons
afresh in each, no unit sees what was translated before it, and the generator may as well be a new
one (`lowerUnits_eq`). So a program has a text just if each of its units has one when translated
alone and the function it starts with is declared, its text is made of those of its units, and it
fails as the first of its units that fails: `translateUnits_independent`. -/

namespace HackVm

/-! ## One generator for all units -/

namespace Generator

/-- The blocks of a row of commands and the generator behind them. -/
def lowerRow : Generator → List Statement → Except ProgramError (List Block × Generator)
  | g, [] => .ok ([], g)
  | g, s :: rest =>
    match g.lower s.command with
    | .error cause => .error (.lowering g.unit s.position cause)
    | .ok (body, g') => do
      let (blocks, last) ← lowerRow g' rest
      return (⟨s.command.text, body⟩ :: blocks, last)

/-- The blocks of units that one generator goes through. -/
def lowerUnits : Generator → List (String × String) → Except ProgramError (List Block)
  | _, [] => .ok []
  | g, (unit, source) :: rest =>
    let readout := (Reader.ofString source unit).readAll
    match (g.setUnit unit).lowerRow readout.statements, readout.failure with
    | .error e, _ => .error e
    | .ok _, some e => .error (.reading e)
    | .ok (blocks, g'), none => (blocks ++ ·) <$> lowerUnits g' rest

/-- The generator behind a row of commands has the static scope of the one before it, and the
blocks are those that a unit has for itself. -/
theorem lowerRow_eq (g : Generator) (statements : List Statement) :
    (∃ blocks g', g.lowerRow statements = .ok (blocks, g') ∧ g'.statics = g.statics ∧
        lowerStatements g.unit g statements = .ok blocks) ∨
      ∃ e, g.lowerRow statements = .error e ∧ lowerStatements g.unit g statements = .error e := by
  induction statements generalizing g with
  | nil => exact .inl ⟨[], g, rfl, rfl, rfl⟩
  | cons s rest ih =>
    rw [lowerRow, lowerStatements]
    cases hlower : g.lower s.command with
    | error cause => exact .inr ⟨_, rfl, rfl⟩
    | ok result =>
      obtain ⟨body, g'⟩ := result
      obtain ⟨hunit, hstatics⟩ := Generator.of_lower hlower
      dsimp only
      rw [← hunit]
      rcases ih g' with ⟨blocks, last, hrow, hlast, hrest⟩ | ⟨e, hrow, hrest⟩
      · refine .inl ⟨⟨s.command.text, body⟩ :: blocks, last, ?_, hlast.trans hstatics, ?_⟩
        · rw [hrow]
          rfl
        · rw [hrest]
          rfl
      · refine .inr ⟨e, ?_, ?_⟩
        · rw [hrow]
          rfl
        · rw [hrest]
          rfl

end Generator

/-- The result of translating several units, step by step. -/
theorem result_translateEach_cons (scope : StaticScope) (owners : Owners) (unit source : String)
    (rest : List (String × String)) :
    ∃ owners', (translateEach scope owners ((unit, source) :: rest)).result.map Prod.fst =
      (unitBlocks scope unit (Reader.ofString source unit).readAll).bind fun blocks =>
        (blocks ++ ·) <$> (translateEach scope owners' rest).result.map Prod.fst := by
  obtain ⟨owners', henter, -⟩ := owners.exists_enter unit
    (Reader.ofString source unit).readAll.reader.declaredByName
  refine ⟨owners', ?_⟩
  have hunit := result_translateUnit scope unit source
  rw [translateEach]
  cases hblocks : unitBlocks scope unit (Reader.ofString source unit).readAll with
  | error e =>
    rw [hblocks] at hunit
    rw [Report.bind_of_error hunit]
    rfl
  | ok blocks =>
    rw [hblocks] at hunit
    rw [Report.bind_of_ok hunit, Report.bind_of_ok henter]
    cases hrest : (translateEach scope owners' rest).result with
    | error e =>
      rw [Report.bind_of_error hrest]
      rfl
    | ok result =>
      rw [Report.bind_of_ok hrest]
      rfl

/-- What a generator did in earlier units leaves no trace. The induction is on the units, for every
generator of the static scope. -/
theorem lowerUnits_eq {g : Generator} {scope : StaticScope} (hg : g.statics = scope)
    (owners : Owners) (units : List (String × String)) :
    g.lowerUnits units = (translateEach scope owners units).result.map Prod.fst := by
  induction units generalizing g owners with
  | nil => rfl
  | cons u rest ih =>
    obtain ⟨unit, source⟩ := u
    obtain ⟨owners', heach⟩ := result_translateEach_cons scope owners unit source rest
    rw [heach, Generator.lowerUnits, unitBlocks]
    have hreset : g.setUnit unit = .enter scope unit := by rw [Generator.setUnit, hg]
    rw [hreset]
    rcases Generator.lowerRow_eq (.enter scope unit)
      (Reader.ofString source unit).readAll.statements
      with ⟨blocks, g', hrow, hstatics, hlower⟩ | ⟨e, hrow, hlower⟩
    · rw [hrow, show lowerStatements unit _ _ = _ from hlower]
      cases (Reader.ofString source unit).readAll.failure with
      | some e => rfl
      | none => exact congrArg ((blocks ++ ·) <$> ·) (ih hstatics owners')
    · rw [hrow, show lowerStatements unit _ _ = _ from hlower]
      rfl

/-! ## Units alone -/

/-- A unit has a text when it is translated alone. -/
def TranslatesAlone (settings : Settings) (u : String × String) : Prop :=
  ∃ text, (translateString settings u.2 u.1).result = .ok text

/-- The first unit that fails when it is translated alone fails with `e`. -/
def FailsFirst (settings : Settings) (units : List (String × String)) (e : ProgramError) : Prop :=
  ∃ before u after, units = before ++ u :: after ∧ (∀ v ∈ before, TranslatesAlone settings v) ∧
    (translateString settings u.2 u.1).result = .error e

/-- Some unit declares the function that a program starts with. -/
def DeclaresEntry (settings : Settings) (units : List (String × String)) : Prop :=
  ∃ name, settings.entry = .given name ∧
    ∃ u ∈ units, ∃ locals, .function name locals ∈ commandsIn u.1 u.2

/-- How a program fails that starts with a function which is not declared. -/
def Setting.entryError : Setting → ProgramError
  | .given name => .missingEntry name
  | .blank => .blankEntry

theorem mem_declarationsOf_iff {cs : List Command} {name : String} :
    name ∈ declarationsOf cs ↔ ∃ locals, .function name locals ∈ cs := by
  rw [declarationsOf, List.mem_filterMap]
  constructor
  · rintro ⟨c, hc, hname⟩
    cases c with
    | function f locals =>
      obtain rfl := Option.some.inj hname
      exact ⟨locals, hc⟩
    | _ => cases hname
  · rintro ⟨locals, hc⟩
    exact ⟨_, hc, rfl⟩

theorem declaresEntry_iff {settings : Settings} {units : List (String × String)} :
    DeclaresEntry settings units ↔ ∃ name, settings.entry = .given name ∧
      name ∈ units.flatMap fun u => declaredIn u.1 u.2 := by
  refine exists_congr fun name => and_congr_right fun _ => ?_
  rw [List.mem_flatMap]
  refine exists_congr fun u => and_congr_right fun _ => ?_
  exact mem_declarationsOf_iff.symm

section

variable {settings : Settings} {scope : StaticScope}

theorem result_translateString (hscope : StaticScope.ofSetting settings.staticScope = .ok scope)
    (source unit : String) :
    (translateString settings source unit).result =
      (unitBlocks scope unit (Reader.ofString source unit).readAll).map
        (Block.text settings.comments) := by
  have hresult : (Report.ofExcept (StaticScope.ofSetting settings.staticScope)).result =
      .ok scope := hscope
  have hunit := result_translateUnit scope unit source
  rw [translateString, Report.bind_of_ok hresult]
  cases hblocks : unitBlocks scope unit (Reader.ofString source unit).readAll with
  | error e =>
    rw [hblocks] at hunit
    rw [Report.bind_of_error hunit]
    rfl
  | ok blocks =>
    rw [hblocks] at hunit
    rw [Report.bind_of_ok hunit]
    rfl

theorem translateString_eq_ok_iff
    (hscope : StaticScope.ofSetting settings.staticScope = .ok scope) {source unit text : String} :
    (translateString settings source unit).result = .ok text ↔
      ∃ codes, IsUnitCode scope unit source codes ∧
        text = Block.text settings.comments (codes.map Coded.block) := by
  rw [result_translateString hscope]
  cases hblocks : unitBlocks scope unit (Reader.ofString source unit).readAll with
  | error e =>
    refine ⟨fun h => (by cases h), ?_⟩
    rintro ⟨codes, hcodes, -⟩
    rw [unitBlocks_eq_ok_iff.mpr ⟨codes, hcodes, rfl⟩] at hblocks
    cases hblocks
  | ok blocks =>
    constructor
    · intro h
      cases h
      obtain ⟨codes, hcodes, rfl⟩ := unitBlocks_eq_ok_iff.mp hblocks
      exact ⟨codes, hcodes, rfl⟩
    · rintro ⟨codes, hcodes, rfl⟩
      rw [unitBlocks_eq_ok_iff.mpr ⟨codes, hcodes, rfl⟩] at hblocks
      cases hblocks
      rfl

theorem translateString_eq_error_iff
    (hscope : StaticScope.ofSetting settings.staticScope = .ok scope) {source unit : String}
    {e : ProgramError} :
    (translateString settings source unit).result = .error e ↔
      unitBlocks scope unit (Reader.ofString source unit).readAll = .error e := by
  rw [result_translateString hscope]
  cases unitBlocks scope unit (Reader.ofString source unit).readAll with
  | error e' => simp [Except.map]
  | ok blocks => simp [Except.map]

/-- Commands fail for one of them that has no code. -/
theorem exists_of_lowerStatements_eq_error {unit : String} {g : Generator}
    {statements : List Statement} {e : ProgramError}
    (h : lowerStatements unit g statements = .error e) :
    ∃ s ∈ statements, ∃ cause, e = .lowering unit s.position cause := by
  induction statements generalizing g with
  | nil => cases h
  | cons s rest ih =>
    rw [lowerStatements] at h
    cases hlower : g.lower s.command with
    | error cause =>
      rw [hlower] at h
      cases h
      exact ⟨s, List.mem_cons_self, cause, rfl⟩
    | ok result =>
      obtain ⟨body, g'⟩ := result
      rw [hlower] at h
      dsimp only at h
      cases hrest : lowerStatements unit g' rest with
      | ok others =>
        rw [hrest] at h
        cases h
      | error e' =>
        rw [hrest] at h
        cases h
        obtain ⟨t, ht, cause, rfl⟩ := ih hrest
        exact ⟨t, List.mem_cons_of_mem s ht, cause, rfl⟩

/-- A unit alone never misses an entry function. -/
theorem translateString_ne_entryError
    (hscope : StaticScope.ofSetting settings.staticScope = .ok scope) (source unit : String)
    (entry : Setting) :
    (translateString settings source unit).result ≠ .error entry.entryError := by
  rw [Ne, translateString_eq_error_iff hscope, unitBlocks]
  intro h
  split at h
  · rename_i e he
    cases h
    obtain ⟨s, -, cause, heq⟩ := exists_of_lowerStatements_eq_error he
    cases entry <;> cases heq
  · cases entry <;> cases h
  · cases h

/-! ## Units together -/

theorem exists_failsFirst {units : List (String × String)}
    (h : ¬ ∀ u ∈ units, TranslatesAlone settings u) : ∃ e, FailsFirst settings units e := by
  induction units with
  | nil => exact absurd (List.forall_mem_nil _) h
  | cons u rest ih =>
    cases hu : (translateString settings u.2 u.1).result with
    | error e => exact ⟨e, [], u, rest, rfl, List.forall_mem_nil _, hu⟩
    | ok text =>
      have hrest : ¬ ∀ v ∈ rest, TranslatesAlone settings v :=
        fun hrest => h (List.forall_mem_cons.mpr ⟨⟨text, hu⟩, hrest⟩)
      obtain ⟨e, before, v, after, rfl, hbefore, hv⟩ := ih hrest
      exact ⟨e, u :: before, v, after, rfl, List.forall_mem_cons.mpr ⟨⟨text, hu⟩, hbefore⟩, hv⟩

/-- Units that can be translated alone have code, and the other way round. -/
theorem forall_translatesAlone_iff
    (hscope : StaticScope.ofSetting settings.staticScope = .ok scope)
    {units : List (String × String)} :
    (∀ u ∈ units, TranslatesAlone settings u) ↔ ∃ parts, IsProgramCode scope units parts := by
  constructor
  · intro h
    induction units with
    | nil => exact ⟨[], .nil⟩
    | cons u rest ih =>
      obtain ⟨⟨text, hu⟩, hrest⟩ := List.forall_mem_cons.mp h
      obtain ⟨codes, hcodes, -⟩ := (translateString_eq_ok_iff hscope).mp hu
      obtain ⟨parts, hparts⟩ := ih hrest
      exact ⟨codes :: parts, .cons hcodes hparts⟩
  · rintro ⟨parts, hparts⟩
    induction hparts with
    | nil => exact List.forall_mem_nil _
    | @cons u codes rest parts hunit hothers ih =>
      refine List.forall_mem_cons.mpr ⟨?_, ih⟩
      exact ⟨_, (translateString_eq_ok_iff hscope).mpr ⟨codes, hunit, rfl⟩⟩

/-- Several units fail like the first one that fails alone. -/
theorem FailsFirst.translateEach (hscope : StaticScope.ofSetting settings.staticScope = .ok scope)
    {units : List (String × String)} {e : ProgramError} (h : FailsFirst settings units e)
    (owners : Owners) : (translateEach scope owners units).result = .error e := by
  obtain ⟨before, u, after, rfl, hbefore, hu⟩ := h
  have herror : ∀ {r : Except ProgramError (List Block × Owners)},
      r.map Prod.fst = .error e → r = .error e := by
    intro r hr
    cases r <;> cases hr
    rfl
  refine herror ?_
  induction before generalizing owners with
  | nil =>
    obtain ⟨owners', heach⟩ := result_translateEach_cons scope owners u.1 u.2 after
    rw [translateString_eq_error_iff hscope] at hu
    rw [hu] at heach
    exact heach
  | cons v before ih =>
    obtain ⟨⟨text, hv⟩, hothers⟩ := List.forall_mem_cons.mp hbefore
    obtain ⟨owners', heach⟩ := result_translateEach_cons scope owners v.1 v.2 (before ++ u :: after)
    obtain ⟨codes, hcodes, -⟩ := (translateString_eq_ok_iff hscope).mp hv
    rw [unitBlocks_eq_ok_iff.mpr ⟨codes, hcodes, rfl⟩, ih owners' hothers] at heach
    exact heach

theorem result_translateUnits (hscope : StaticScope.ofSetting settings.staticScope = .ok scope)
    (units : List (String × String)) (bootstrap : Bool) :
    (translateUnits settings units bootstrap).result =
      (translateEach scope [] units).result.bind fun result =>
        (if bootstrap then result.2.checkEntry settings.entry else .ok ()).map fun _ =>
          Block.text settings.comments
            (startBlocks settings.entry.text bootstrap ++ result.1) := by
  have hresult : (Report.ofExcept (StaticScope.ofSetting settings.staticScope)).result =
      .ok scope := hscope
  rw [translateUnits, Report.bind_of_ok hresult]
  have hprogress : ∀ message,
      (Report.progress message : Report ProgramError Unit).result = .ok () := fun _ => rfl
  cases heach : (translateEach scope [] units).result with
  | error e =>
    cases bootstrap with
    | false =>
      simp only [Bool.false_eq_true, if_false, Report.bind_of_error heach]
      rfl
    | true =>
      simp only [if_true, Report.bind_of_ok (hprogress _), Report.bind_of_error heach]
      rfl
  | ok result =>
    cases bootstrap with
    | false =>
      simp only [Bool.false_eq_true, if_false, Report.bind_of_ok heach]
      rfl
    | true =>
      simp only [if_true, Report.bind_of_ok (hprogress _), Report.bind_of_ok heach]
      show _ = (result.2.checkEntry settings.entry).map _
      cases result.2.checkEntry settings.entry <;> rfl

theorem FailsFirst.translateUnits (hscope : StaticScope.ofSetting settings.staticScope = .ok scope)
    {units : List (String × String)} {e : ProgramError} (h : FailsFirst settings units e)
    (bootstrap : Bool) : (translateUnits settings units bootstrap).result = .error e := by
  rw [result_translateUnits hscope, h.translateEach hscope]
  rfl

theorem checkEntry_eq_error {owners : Owners} {entry : Setting}
    (h : ¬ ∃ name, entry = .given name ∧ (owners.lookup name).isSome = true) :
    owners.checkEntry entry = .error entry.entryError := by
  cases entry with
  | blank => rfl
  | given name =>
    have hname : ¬ (owners.lookup name).isSome = true := fun hsome => h ⟨name, rfl, hsome⟩
    rw [Owners.checkEntry, if_neg hname]
    rfl

/-- The function that a program starts with is asked for behind its units. -/
theorem translateUnits_eq_entryError
    (hscope : StaticScope.ofSetting settings.staticScope = .ok scope)
    {units : List (String × String)} (hall : ∀ u ∈ units, TranslatesAlone settings u)
    (hmissing : ¬ DeclaresEntry settings units) :
    (translateUnits settings units true).result = .error settings.entry.entryError := by
  obtain ⟨parts, hparts⟩ := (forall_translatesAlone_iff hscope).mp hall
  obtain ⟨owners, heach, hlookup⟩ := hparts.exists_translateEach []
  rw [declaresEntry_iff] at hmissing
  have hcheck : owners.checkEntry settings.entry = .error settings.entry.entryError := by
    refine checkEntry_eq_error ?_
    rintro ⟨name, hname, hsome⟩
    rcases (hlookup name).mp hsome with hnil | hdeclared
    · cases hnil
    · exact hmissing ⟨name, hname, hdeclared⟩
  rw [result_translateUnits hscope, heach]
  show (owners.checkEntry settings.entry).map _ = _
  rw [hcheck]
  rfl

/-- A program has a text if its units have one alone and no function is missing that it starts
with, and only then. -/
theorem exists_translateUnits_iff
    (hscope : StaticScope.ofSetting settings.staticScope = .ok scope)
    {units : List (String × String)} {bootstrap : Bool} :
    (∃ text, (translateUnits settings units bootstrap).result = .ok text) ↔
      (∀ u ∈ units, TranslatesAlone settings u) ∧
        (bootstrap = true → DeclaresEntry settings units) := by
  rw [forall_translatesAlone_iff hscope, declaresEntry_iff]
  constructor
  · rintro ⟨text, h⟩
    obtain ⟨scope', parts, hscope', hparts, hentry, -⟩ := translateUnits_eq_ok_iff.mp h
    obtain rfl := Except.ok.inj (hscope.symm.trans hscope')
    exact ⟨⟨parts, hparts⟩, hentry⟩
  · rintro ⟨⟨parts, hparts⟩, hentry⟩
    exact ⟨_, translateUnits_eq_ok_iff.mpr ⟨scope, parts, hscope, hparts, hentry, rfl⟩⟩

/-- A program fails like its first unit that fails, and if there is none, for want of the function
it starts with. -/
theorem translateUnits_eq_error_iff
    (hscope : StaticScope.ofSetting settings.staticScope = .ok scope)
    {units : List (String × String)} {bootstrap : Bool} {e : ProgramError} :
    (translateUnits settings units bootstrap).result = .error e ↔
      FailsFirst settings units e ∨ (∀ u ∈ units, TranslatesAlone settings u) ∧
        bootstrap = true ∧ ¬ DeclaresEntry settings units ∧ e = settings.entry.entryError := by
  constructor
  · intro h
    by_cases hall : ∀ u ∈ units, TranslatesAlone settings u
    · right
      have hnot : ¬ (bootstrap = true → DeclaresEntry settings units) := by
        intro hdeclared
        obtain ⟨text, htext⟩ := (exists_translateUnits_iff hscope).mpr ⟨hall, hdeclared⟩
        cases h.symm.trans htext
      obtain ⟨rfl, hmissing⟩ := Classical.not_imp.mp hnot
      have herror := translateUnits_eq_entryError hscope hall hmissing
      exact ⟨hall, rfl, hmissing, Except.error.inj (h.symm.trans herror)⟩
    · left
      obtain ⟨e', he'⟩ := exists_failsFirst hall
      rwa [Except.error.inj (h.symm.trans (he'.translateUnits hscope bootstrap))]
  · rintro (h | ⟨hall, rfl, hmissing, rfl⟩)
    · exact h.translateUnits hscope bootstrap
    · exact translateUnits_eq_entryError hscope hall hmissing

/-! ## The text of a program -/

/-- The texts of the units with commands, in order, are the text of their code. -/
theorem IsProgramCode.exists_texts (hscope : StaticScope.ofSetting settings.staticScope = .ok scope)
    {units : List (String × String)} {parts : List (List Coded)}
    (h : IsProgramCode scope units parts) :
    ∃ texts, List.Forall₂ (fun u text => (translateString settings u.2 u.1).result = .ok text)
        (units.filter fun u => decide (commandsIn u.1 u.2 ≠ [])) texts ∧
      Block.joinLines ((parts.flatten.map Coded.block).flatMap (Block.lines settings.comments)) =
        String.join texts ∧ (texts = [] ↔ parts.flatten = []) := by
  induction h with
  | nil => exact ⟨[], .nil, rfl, iff_of_true rfl rfl⟩
  | @cons u codes units parts hunit hothers ih =>
    obtain ⟨texts, htexts, hjoin, hnil⟩ := ih
    have hcommands := hunit.commands
    by_cases hempty : codes = []
    · subst hempty
      refine ⟨texts, ?_, hjoin, hnil⟩
      rwa [List.filter_cons_of_neg (by simp [← hcommands])]
    · have hblocks : codes.map Coded.block ≠ [] := by simpa using hempty
      refine ⟨Block.text settings.comments (codes.map Coded.block) :: texts, ?_, ?_, ?_⟩
      · rw [List.filter_cons_of_pos (by simpa [← hcommands] using hempty)]
        exact .cons ((translateString_eq_ok_iff hscope).mpr ⟨codes, hunit, rfl⟩) htexts
      · rw [List.flatten_cons, List.map_append, List.flatMap_append, Block.joinLines_append, hjoin,
          Block.text_of_ne_nil _ hblocks, String.join_cons]
      · simp [hempty]

/-- The text of a program is that of its start and those of its units with commands. -/
theorem exists_texts_of_translateUnits
    (hscope : StaticScope.ofSetting settings.staticScope = .ok scope)
    {units : List (String × String)} {bootstrap : Bool} {text : String}
    (h : (translateUnits settings units bootstrap).result = .ok text) :
    ∃ texts, List.Forall₂ (fun u text => (translateString settings u.2 u.1).result = .ok text)
        (units.filter fun u => decide (commandsIn u.1 u.2 ≠ [])) texts ∧
      text = if bootstrap = false ∧ texts = [] then "\n"
        else (if bootstrap then Block.text settings.comments [Bootstrap.block settings.entry.text]
          else "") ++ String.join texts := by
  obtain ⟨scope', parts, hscope', hparts, -, rfl⟩ := translateUnits_eq_ok_iff.mp h
  obtain rfl := Except.ok.inj (hscope.symm.trans hscope')
  obtain ⟨texts, htexts, hjoin, hnil⟩ := hparts.exists_texts hscope
  refine ⟨texts, htexts, ?_⟩
  cases bootstrap with
  | true =>
    rw [if_neg (by simp), if_pos rfl, startBlocks, if_pos rfl, List.singleton_append,
      Block.text_of_ne_nil _ (List.cons_ne_nil _ _), Block.text_of_ne_nil _ (List.cons_ne_nil _ _),
      ← List.singleton_append, List.flatMap_append, Block.joinLines_append, hjoin]
  | false =>
    rw [if_neg Bool.false_ne_true, startBlocks, if_neg Bool.false_ne_true, List.nil_append,
      String.empty_append]
    by_cases hempty : texts = []
    · rw [if_pos ⟨rfl, hempty⟩, hnil.mp hempty]
      rfl
    · have hblocks : parts.flatten.map Coded.block ≠ [] := by
        rw [Ne, List.map_eq_nil_iff, ← hnil]
        exact hempty
      rw [if_neg (by simp [hempty]), Block.text_of_ne_nil _ hblocks, hjoin]

/-- Units are translated independently. A program has a text just if each unit has one alone and
the function it starts with is declared; the text is then that of the start, if there is one, and
those of the units with commands. It fails with the error of the first unit that fails, and for
want of the function it starts with only if no unit fails. All this is what one generator does
that goes from unit to unit. -/
theorem translateUnits_independent
    (hscope : StaticScope.ofSetting settings.staticScope = .ok scope)
    (units : List (String × String)) (bootstrap : Bool) :
    ((∃ text, (translateUnits settings units bootstrap).result = .ok text) ↔
        (∀ u ∈ units, TranslatesAlone settings u) ∧
          (bootstrap = true → DeclaresEntry settings units)) ∧
      (∀ text, (translateUnits settings units bootstrap).result = .ok text →
        ∃ texts, List.Forall₂ (fun u text => (translateString settings u.2 u.1).result = .ok text)
            (units.filter fun u => decide (commandsIn u.1 u.2 ≠ [])) texts ∧
          text = if bootstrap = false ∧ texts = [] then "\n"
            else (if bootstrap then
              Block.text settings.comments [Bootstrap.block settings.entry.text]
              else "") ++ String.join texts) ∧
      (∀ e, (translateUnits settings units bootstrap).result = .error e ↔
        FailsFirst settings units e ∨ (∀ u ∈ units, TranslatesAlone settings u) ∧
          bootstrap = true ∧ ¬ DeclaresEntry settings units ∧ e = settings.entry.entryError) ∧
      (∀ e, FailsFirst settings units e → e ≠ settings.entry.entryError) ∧
      ∀ (g : Generator) (owners : Owners), g.statics = scope →
        g.lowerUnits units = (translateEach scope owners units).result.map Prod.fst := by
  refine ⟨exists_translateUnits_iff hscope, fun text h => exists_texts_of_translateUnits hscope h,
    fun e => translateUnits_eq_error_iff hscope, ?_,
    fun g owners hg => lowerUnits_eq hg owners units⟩
  rintro e ⟨before, u, after, -, -, hu⟩ rfl
  exact translateString_ne_entryError hscope u.2 u.1 _ hu

end

/-- Three units, of which the second has no commands, and three of which the second pops into a
constant: what is wrong with the third and with the start does not show. -/
theorem translateUnits_independent_popConstant :
    StaticScope.ofSetting (Settings.staticScope {}) = .ok .unit ∧
      (∃ text, (translateUnits {} [("A", "push constant 1"), ("B", "// nothing"),
        ("A", "push constant 1")] false).result = .ok text) ∧
      (translateUnits {} [("A", "push constant 1"), ("B", "pop constant 0"), ("A", "?")]
        true).result = .error (.lowering "B" ⟨0, 0⟩ (.popConstant 0)) := by
  have hscope : StaticScope.ofSetting (Settings.staticScope {}) = .ok .unit := by decide
  have hpush : TranslatesAlone {} ("A", "push constant 1") := by
    refine ⟨"// push constant 1\n@1\nD=A\n@SP\nA=M\nM=D\n@SP\nM=M+1\n\n", ?_⟩
    cbv
  have hnothing : TranslatesAlone {} ("B", "// nothing") := by
    refine ⟨"\n", ?_⟩
    cbv
  have hpop : (translateString {} "pop constant 0" "B").result =
      .error (.lowering "B" ⟨0, 0⟩ (.popConstant 0)) := by cbv
  refine ⟨hscope, ?_, ?_⟩
  · refine (translateUnits_independent hscope _ false).1.mpr ⟨?_, by simp⟩
    simp only [List.forall_mem_cons]
    exact ⟨hpush, hnothing, hpush, List.forall_mem_nil _⟩
  · refine ((translateUnits_independent hscope _ true).2.2.1 _).mpr (.inl ?_)
    exact ⟨[("A", "push constant 1")], _, _, rfl, List.forall_mem_singleton.mpr hpush, hpop⟩

end HackVm
