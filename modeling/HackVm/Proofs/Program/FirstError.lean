import HackVm.Files.Build
import HackVm.Proofs.Program.Independence

set_option autoImplicit false

/-! # The first error of a unit

A unit is read and lowered command by command, so an error in the text and a command without code
compete for the place that comes first. `Reader.lowerAll` takes one command at a time, reading it
and giving it code before the next one is read; it does the same as lowering all that was read
before the first error in the text (`Reader.lowerAll_eq`).

Which commands are refused depends on the command alone, not on the generator
(`Generator.lower_eq_error_iff`). So the error of a unit is that of the first command read that is
refused, and only if there is none that of the reader (`translateString_first_error`). -/

namespace HackVm

/-! ## Commands without code -/

/-- Why a command has no code, if it has none: it names a cell that its segment does not have, or
it pops into a constant. -/
def Command.refusal? : Command → Option LoweringError
  | .push .pointer n => if 1 < n then some (.cell (.push .pointer n) (.pointer n)) else none
  | .pop .pointer n => if 1 < n then some (.cell (.pop .pointer n) (.pointer n)) else none
  | .push .temp n => if 7 < n then some (.cell (.push .temp n) (.temp n)) else none
  | .pop .temp n => if 7 < n then some (.cell (.pop .temp n) (.temp n)) else none
  | .pop .constant n => some (.popConstant n)
  | _ => none

namespace LoweringError

/-- The command that has no code. -/
def command : LoweringError → Command
  | .cell c _ => c
  | .popConstant n => .pop .constant n

/-- A message names the command that has no code. -/
theorem exists_message (e : LoweringError) :
    ∃ front back, e.message = front ++ e.command.text ++ back := by
  cases e with
  | cell c cause =>
    have hmessage : (LoweringError.cell c cause).message = c.text ++ ": " ++ cause.message := rfl
    refine ⟨"", ": " ++ cause.message, ?_⟩
    rw [hmessage, command, String.empty_append, String.append_assoc]
  | popConstant n =>
    have hmessage : (LoweringError.popConstant n).message =
        "invalid operation: " ++ (Command.pop .constant n).text := rfl
    refine ⟨"invalid operation: ", "", ?_⟩
    rw [hmessage, command, String.append_empty]

end LoweringError

theorem Command.command_of_refusal? {c : Command} {cause : LoweringError}
    (h : c.refusal? = some cause) : cause.command = c := by
  have hif : ∀ {p : Prop} [Decidable p] {e : LoweringError},
      (if p then some e else none) = some cause → e = cause := by
    intro p _ e h
    split at h
    · exact Option.some.inj h
    · cases h
  cases c with
  | push segment n =>
    cases segment with
    | pointer | temp =>
      obtain rfl := hif h
      rfl
    | _ => cases h
  | pop segment n =>
    cases segment with
    | pointer | temp =>
      obtain rfl := hif h
      rfl
    | constant =>
      obtain rfl := Option.some.inj h
      rfl
    | _ => cases h
  | _ => cases h

/-! ## Refusals and generators -/

namespace Memory

theorem pointerCell_natCast (k : Nat) :
    (1 < (k : Int) → pointerCell k = .error (.pointer k)) ∧
      (¬ 1 < (k : Int) → ∃ symbol, pointerCell k = .ok symbol) := by
  constructor
  · intro hk
    exact (pointerCell_eq_error_iff k).mpr (.inr hk)
  · intro hk
    have hcases : k = 0 ∨ k = 1 := by omega
    rcases hcases with rfl | rfl <;> exact ⟨_, rfl⟩

theorem tempCell_natCast (k : Nat) :
    (7 < (k : Int) → tempCell k = .error (.temp k)) ∧
      (¬ 7 < (k : Int) → ∃ symbol, tempCell k = .ok symbol) := by
  constructor
  · intro hk
    exact (tempCell_eq_error_iff k).mpr (.inr hk)
  · intro hk
    have hsize : (k : Int) < tempSize := Int.lt_of_not_ge fun h => hk h
    exact ⟨_, if_pos ⟨Int.natCast_nonneg k, hsize⟩⟩

end Memory

/-- Code for a cell is refused just if there is no such cell. -/
theorem lower_cell_eq_error_iff {g : Generator} {f : String → List Line}
    {e : Memory.CellError → LoweringError} {r : Except Memory.CellError String} {p : Prop}
    [Decidable p] {error : Memory.CellError} {cause : LoweringError} (hp : p → r = .error error)
    (hnot : ¬ p → ∃ symbol, r = .ok symbol) :
    (·, g) <$> (f <$> r.mapError e : Except LoweringError (List Line)) =
        (.error cause : Except LoweringError (List Line × Generator)) ↔
      (if p then some (e error) else none) = some cause := by
  by_cases h : p
  · rw [if_pos h, hp h, Option.some.injEq]
    exact ⟨fun heq => Except.error.inj heq, fun heq => congrArg Except.error heq⟩
  · obtain ⟨symbol, hsymbol⟩ := hnot h
    rw [if_neg h, hsymbol]
    exact ⟨fun heq => (by cases heq), fun heq => (by cases heq)⟩

/-- A command that can be written is refused by all generators alike. -/
theorem Generator.lower_eq_error_iff {g : Generator} {i : Instruction} {scope scope' : Option Scope}
    {c : Command} (h : i.resolve scope = .ok (c, scope')) {cause : LoweringError} :
    g.lower c = .error cause ↔ c.refusal? = some cause := by
  cases i with
  | arithmetic op =>
    cases h
    exact ⟨fun h => (by cases h), fun h => (by cases h)⟩
  | push segment k =>
    cases h
    cases segment with
    | pointer =>
      exact lower_cell_eq_error_iff (Memory.pointerCell_natCast k).1
        (Memory.pointerCell_natCast k).2
    | temp =>
      exact lower_cell_eq_error_iff (Memory.tempCell_natCast k).1 (Memory.tempCell_natCast k).2
    | _ => exact ⟨fun h => (by cases h), fun h => (by cases h)⟩
  | pop segment k =>
    cases h
    cases segment with
    | pointer =>
      exact lower_cell_eq_error_iff (Memory.pointerCell_natCast k).1
        (Memory.pointerCell_natCast k).2
    | temp =>
      exact lower_cell_eq_error_iff (Memory.tempCell_natCast k).1 (Memory.tempCell_natCast k).2
    | constant =>
      exact ⟨fun h => congrArg some (Except.error.inj h),
        fun h => congrArg Except.error (Option.some.inj h)⟩
    | _ => exact ⟨fun h => (by cases h), fun h => (by cases h)⟩
  | label name | goto name | ifGoto name | function name k | call callee k | ret =>
    cases scope <;> cases h <;> exact ⟨fun h => (by cases h), fun h => (by cases h)⟩

/-- Commands that are read can be written, also those before an error. -/
theorem Reader.exists_resolve_of_mem_readAll {r : Reader} (hr : r.Genuine) :
    ∀ s ∈ r.readAll.statements, ∃ i : Instruction, ∃ scope scope',
      i.resolve scope = .ok (s.command, scope') := by
  fun_induction Reader.readAll r with
  | case1 r s r' hnext others ih =>
    obtain ⟨p, -, hpending, -, hresolve, -⟩ := Reading.phrase_of_run_next hr hnext
    exact List.forall_mem_cons.mpr ⟨⟨_, _, _, hresolve⟩, ih (hr.append hpending)⟩
  | case2 r r' hnext => exact List.forall_mem_nil _
  | case3 r e r' hnext => exact List.forall_mem_nil _

/-! ## One command after the other -/

/-- The error of the first command in a row that is refused. -/
def firstRefusal? (unit : String) (statements : List Statement) : Option ProgramError :=
  statements.findSome? fun s => s.command.refusal?.map (.lowering unit s.position)

theorem firstRefusal?_eq_some_iff {unit : String} {statements : List Statement}
    {e : ProgramError} :
    firstRefusal? unit statements = some e ↔ ∃ before s after cause,
      statements = before ++ s :: after ∧ (∀ t ∈ before, t.command.refusal? = none) ∧
        s.command.refusal? = some cause ∧ e = .lowering unit s.position cause := by
  rw [firstRefusal?, List.findSome?_eq_some_iff]
  constructor
  · rintro ⟨before, s, after, hsplit, hs, hbefore⟩
    obtain ⟨cause, hcause, rfl⟩ := Option.map_eq_some_iff.mp hs
    exact ⟨before, s, after, cause, hsplit,
      fun t ht => Option.map_eq_none_iff.mp (hbefore t ht), hcause, rfl⟩
  · rintro ⟨before, s, after, cause, hsplit, hbefore, hcause, rfl⟩
    exact ⟨before, s, after, hsplit, by rw [hcause]; rfl,
      fun t ht => Option.map_eq_none_iff.mpr (hbefore t ht)⟩

theorem firstRefusal?_eq_none_iff {unit : String} {statements : List Statement} :
    firstRefusal? unit statements = none ↔ ∀ s ∈ statements, s.command.refusal? = none := by
  simp [firstRefusal?, List.findSome?_eq_none_iff]

/-- A row of commands fails as the first of them that is refused, whatever was numbered before. -/
theorem lowerStatements_eq_error_iff {unit : String} {g : Generator} {statements : List Statement}
    {e : ProgramError}
    (hresolve : ∀ s ∈ statements, ∃ i : Instruction, ∃ scope scope',
      i.resolve scope = .ok (s.command, scope')) :
    lowerStatements unit g statements = .error e ↔ firstRefusal? unit statements = some e := by
  induction statements generalizing g with
  | nil => exact ⟨fun h => (by cases h), fun h => (by cases h)⟩
  | cons s rest ih =>
    rw [List.forall_mem_cons] at hresolve
    obtain ⟨⟨i, scope, scope', hs⟩, hrest⟩ := hresolve
    rw [lowerStatements, firstRefusal?, List.findSome?_cons]
    cases hlower : g.lower s.command with
    | error cause =>
      rw [(Generator.lower_eq_error_iff hs).mp hlower]
      exact ⟨fun h => congrArg some (Except.error.inj h),
        fun h => congrArg Except.error (Option.some.inj h)⟩
    | ok result =>
      have hnone : s.command.refusal? = none := by
        refine Option.eq_none_iff_forall_ne_some.mpr fun cause hcause => ?_
        rw [(Generator.lower_eq_error_iff hs).mpr hcause] at hlower
        cases hlower
      rw [hnone]
      refine Iff.trans ?_ (ih (g := result.2) hrest)
      dsimp only
      cases lowerStatements unit result.2 rest with
      | error e' => exact .rfl
      | ok blocks => exact ⟨fun h => (by cases h), fun h => (by cases h)⟩

/-- Reads commands and gives them code, each before the next one is read. -/
def Reader.lowerAll (unit : String) (g : Generator) (r : Reader) :
    Except ProgramError (List Block) :=
  match _h : r.run Reading.next with
  | (.ok (some s), r') =>
    match g.lower s.command with
    | .error cause => .error (.lowering unit s.position cause)
    | .ok (body, g') => (⟨s.command.text, body⟩ :: ·) <$> r'.lowerAll unit g'
  | (.ok none, _) => .ok []
  | (.error e, _) => .error (.reading e)
termination_by r.pending.length
decreasing_by
  have := Reading.length_next (congrArg Prod.fst _h)
  rwa [_h] at this

/-- A unit is read and lowered command by command. -/
theorem Reader.lowerAll_eq (unit : String) (g : Generator) (r : Reader) :
    r.lowerAll unit g =
      match lowerStatements unit g r.readAll.statements, r.readAll.failure with
      | .error e, _ => .error e
      | .ok _, some e => .error (.reading e)
      | .ok blocks, none => .ok blocks := by
  fun_induction Reader.lowerAll unit g r with
  | case1 g r s r' hnext cause hlower =>
    rw [Reader.readAll_of_run_next hnext, lowerStatements, hlower]
  | case2 g r s r' hnext body g' hlower ih =>
    rw [Reader.readAll_of_run_next hnext, lowerStatements, hlower, ih]
    dsimp only
    cases lowerStatements unit g' r'.readAll.statements with
    | error e => rfl
    | ok blocks => cases r'.readAll.failure <;> rfl
  | case3 g r r' hnext =>
    rw [Reader.readAll_of_run_next_none hnext]
    rfl
  | case4 g r e r' hnext =>
    rw [Reader.readAll_of_run_next_error hnext]
    rfl

/-! ## Units -/

section

variable {settings : Settings} {scope : StaticScope} {source unit : String}

/-- A unit has no blocks if some command of it is refused, or else if it cannot be read. -/
theorem unitBlocks_cases (scope : StaticScope) (source unit : String) :
    let readout := (Reader.ofString source unit).readAll
    (∃ e, firstRefusal? unit readout.statements = some e ∧
      unitBlocks scope unit readout = .error e) ∨
    firstRefusal? unit readout.statements = none ∧
      ((∃ cause, readUnit source unit = .error cause ∧
        unitBlocks scope unit readout = .error (.reading cause)) ∨
      ∃ blocks, readUnit source unit = .ok readout.statements ∧
        unitBlocks scope unit readout = .ok blocks) := by
  intro readout
  have hlower : ∀ e, lowerStatements unit (.enter scope unit) readout.statements = .error e ↔
      firstRefusal? unit readout.statements = some e := fun e =>
    lowerStatements_eq_error_iff
      (Reader.exists_resolve_of_mem_readAll (genuine_ofString source unit))
  rw [unitBlocks]
  cases hstatements : lowerStatements unit (.enter scope unit) readout.statements with
  | error e => exact .inl ⟨e, (hlower e).mp hstatements, rfl⟩
  | ok blocks =>
    refine .inr ⟨Option.eq_none_iff_forall_ne_some.mpr fun e he => ?_, ?_⟩
    · rw [(hlower e).mpr he] at hstatements
      cases hstatements
    · cases hfailure : readout.failure with
      | some cause =>
        refine .inl ⟨cause, ?_, rfl⟩
        have hread : (Reader.ofString source unit).readAll.failure = some cause := hfailure
        rw [readUnit, hread]
      | none => exact .inr ⟨blocks, readUnit_eq_ok_iff.mpr ⟨hfailure, rfl⟩, rfl⟩

theorem warnings_translateUnit_of_error {e : ProgramError}
    (h : (translateUnit scope unit source).result = .error e) :
    (translateUnit scope unit source).warnings = [] := by
  unfold translateUnit at h ⊢
  dsimp only at h ⊢
  generalize unitBlocks scope unit (Reader.ofString source unit).readAll = r at h ⊢
  cases r with
  | error e' => rfl
  | ok blocks => cases blocks <;> cases h

/-- Nothing is found doubtful in a unit that fails. -/
theorem warnings_translateString_of_error
    (hscope : StaticScope.ofSetting settings.staticScope = .ok scope) {e : ProgramError}
    (h : (translateString settings source unit).result = .error e) :
    (translateString settings source unit).warnings = [] := by
  have hresult : (Report.ofExcept (StaticScope.ofSetting settings.staticScope)).result =
      .ok scope := hscope
  rw [translateString, Report.bind_of_ok hresult] at h ⊢
  cases hunit : (translateUnit scope unit source).result with
  | error e' =>
    rw [Report.bind_of_error hunit]
    exact warnings_translateUnit_of_error hunit
  | ok translated =>
    rw [Report.bind_of_ok hunit] at h
    cases h

/-- A unit has a text just if it can be read and no command of it is refused. -/
theorem exists_text_iff (hscope : StaticScope.ofSetting settings.staticScope = .ok scope) :
    (∃ text, (translateString settings source unit).result = .ok text) ↔
      ∃ statements, readUnit source unit = .ok statements ∧
        ∀ s ∈ statements, s.command.refusal? = none := by
  rw [result_translateString hscope]
  rcases unitBlocks_cases scope source unit with
    ⟨e, hrefusal, hblocks⟩ | ⟨hnone, ⟨cause, hread, hblocks⟩ | ⟨blocks, hread, hblocks⟩⟩
  · rw [hblocks]
    constructor
    · rintro ⟨text, h⟩
      cases h
    · rintro ⟨statements, hread, hall⟩
      obtain ⟨-, rfl⟩ := readUnit_eq_ok_iff.mp hread
      rw [firstRefusal?_eq_none_iff.mpr hall] at hrefusal
      cases hrefusal
  · rw [hblocks, hread]
    constructor
    · rintro ⟨text, h⟩
      cases h
    · rintro ⟨statements, h, -⟩
      cases h
  · rw [hblocks]
    exact ⟨fun _ => ⟨_, hread, firstRefusal?_eq_none_iff.mp hnone⟩, fun _ => ⟨_, rfl⟩⟩

/-- A unit fails as the first command read that is refused, or else as the reader. -/
theorem firstRefusal?_of_result_eq_error
    (hscope : StaticScope.ofSetting settings.staticScope = .ok scope) {e : ProgramError}
    (h : (translateString settings source unit).result = .error e) :
    firstRefusal? unit (Reader.ofString source unit).readAll.statements = some e ∨
      firstRefusal? unit (Reader.ofString source unit).readAll.statements = none ∧
        ∃ cause, readUnit source unit = .error cause ∧ e = .reading cause := by
  rw [translateString_eq_error_iff hscope] at h
  rcases unitBlocks_cases scope source unit with
    ⟨e', hrefusal, hblocks⟩ | ⟨hnone, ⟨cause, hread, hblocks⟩ | ⟨blocks, -, hblocks⟩⟩
  · obtain rfl := Except.error.inj (hblocks.symm.trans h)
    exact .inl hrefusal
  · obtain rfl := Except.error.inj (hblocks.symm.trans h)
    exact .inr ⟨hnone, cause, hread, rfl⟩
  · rw [hblocks] at h
    cases h

end

/-- The message of a refusal begins with the place of the command and names the command. -/
theorem exists_message_lowering {unit : String} {s : Statement} {cause : LoweringError}
    (h : s.command.refusal? = some cause) :
    ∃ front back, (ProgramError.lowering unit s.position cause).message =
      unit ++ ":" ++ toString s.position.line ++ ":" ++ toString s.position.column ++ ": " ++
        (front ++ s.command.text ++ back) := by
  obtain ⟨front, back, hcause⟩ := cause.exists_message
  rw [Command.command_of_refusal? h] at hcause
  have hmessage : (ProgramError.lowering unit s.position cause).message =
      unit ++ ":" ++ s.position.text ++ ": " ++ cause.message := rfl
  have hposition : s.position.text =
      toString s.position.line ++ ":" ++ toString s.position.column := rfl
  refine ⟨front, back, ?_⟩
  rw [hmessage, hposition, hcause]
  simp only [String.append_assoc]

/-- A unit is translated command by command. It has a text just if it can be read and no command
of it is refused. If it fails, nothing was found doubtful, and among the commands before the first
error in the text either one is refused, and the error is that of the first of them and names its
place and the command; or none is, and the error is the one in the text. -/
theorem translateString_first_error {settings : Settings} {scope : StaticScope}
    (hscope : StaticScope.ofSetting settings.staticScope = .ok scope) (source unit : String) :
    let report := translateString settings source unit
    let commands := (Reader.ofString source unit).readAll.statements
    report.result = ((Reader.ofString source unit).lowerAll unit (.enter scope unit)).map
        (Block.text settings.comments) ∧
    ((∃ text, report.result = .ok text) ↔ ∃ statements, readUnit source unit = .ok statements ∧
      ∀ s ∈ statements, s.command.refusal? = none) ∧
    ∀ e, report.result = .error e → report.warnings = [] ∧
      ((∃ before s after cause, commands = before ++ s :: after ∧
          (∀ t ∈ before, t.command.refusal? = none) ∧ s.command.refusal? = some cause ∧
          e = .lowering unit s.position cause ∧ (BuildError.program e).errorClass = .content ∧
          ∃ front back, e.message = unit ++ ":" ++ toString s.position.line ++ ":" ++
            toString s.position.column ++ ": " ++ (front ++ s.command.text ++ back)) ∨
        (∀ s ∈ commands, s.command.refusal? = none) ∧
          ∃ cause, readUnit source unit = .error cause ∧ e = .reading cause) := by
  intro report commands
  refine ⟨?_, exists_text_iff hscope, fun e he => ⟨?_, ?_⟩⟩
  · rw [Reader.lowerAll_eq]
    exact result_translateString hscope source unit
  · exact warnings_translateString_of_error hscope he
  · rcases firstRefusal?_of_result_eq_error hscope he with hrefusal | ⟨hnone, hread⟩
    · obtain ⟨before, s, after, cause, hsplit, hbefore, hs, rfl⟩ :=
        firstRefusal?_eq_some_iff.mp hrefusal
      exact .inl ⟨before, s, after, cause, hsplit, hbefore, hs, rfl, rfl,
        exists_message_lowering hs⟩
    · exact .inr ⟨firstRefusal?_eq_none_iff.mp hnone, hread⟩

/-- A unit with two commands that have no code, and an error in the text behind them. -/
def refusedUnit : String := "push temp 7 pop constant 3 push pointer 2 push local"

/-- The first of the two commands is the error. -/
theorem translateString_first_error_refusedUnit :
    let report := translateString {} refusedUnit "Main"
    report.result = .error (.lowering "Main" ⟨0, 12⟩ (.popConstant 3)) ∧ report.warnings = [] ∧
      ∃ s ∈ (Reader.ofString refusedUnit "Main").readAll.statements,
        s.position = ⟨0, 12⟩ ∧ s.command.refusal? = some (.popConstant 3) := by
  intro report
  have hresult : report.result = .error (.lowering "Main" ⟨0, 12⟩ (.popConstant 3)) := by cbv
  obtain ⟨-, -, herror⟩ := @translateString_first_error {} .unit rfl refusedUnit "Main"
  obtain ⟨hwarnings, hfirst⟩ := herror _ hresult
  refine ⟨hresult, hwarnings, ?_⟩
  rcases hfirst with ⟨before, s, after, cause, hsplit, -, hs, he, -⟩ | ⟨-, cause, -, he⟩
  · obtain ⟨-, hposition, rfl⟩ := ProgramError.lowering.inj he
    exact ⟨s, hsplit ▸ List.mem_append_right before List.mem_cons_self, hposition.symm, hs⟩
  · cases he

end HackVm
