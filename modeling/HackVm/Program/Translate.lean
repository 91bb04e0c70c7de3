import HackVm.Command.Reader
import HackVm.Lowering.Generator
import HackVm.Program.Block
import HackVm.Program.Report
import HackVm.Program.Settings

set_option autoImplicit false

/-! # Translating programs

A program consists of units, each a name and a text. Units are translated one after the other
and each on its own: `translateUnit` sees nothing but its unit. What binds them together is
checked around them: a function should belong to one unit only, and a program that starts by
calling an entry function has to define it.

Within a unit the first error wins, whether it lies in the text or in a command that has no
code. -/

namespace HackVm

open Text

/-! ## Errors -/

inductive ProgramError
  | reading (cause : ReadError)
  /-- A command at a place in a unit that has no code. -/
  | lowering (unit : String) (position : Position) (cause : LoweringError)
  | unknownStaticScope (setting : Setting)
  /-- No unit defines the entry function. -/
  | missingEntry (name : String)
  /-- There is no name under which units could define the entry function. -/
  | blankEntry
  deriving DecidableEq, Repr

def ProgramError.message : ProgramError → String
  | .reading cause => cause.message
  | .lowering unit position cause => unit ++ ":" ++ position.text ++ ": " ++ cause.message
  | .unknownStaticScope setting => "unknown static scope: " ++ setting.described
  | .missingEntry name => "entry function " ++ name ++ " is not defined by any unit"
  | .blankEntry => "unhashable type: 'list'"

/-- The scope of static variables that a setting names. -/
def StaticScope.ofSetting (setting : Setting) : Except ProgramError StaticScope :=
  match setting.name?.bind StaticScope.ofName? with
  | some scope => .ok scope
  | none => .error (.unknownStaticScope setting)

/-! ## One unit -/

/-- A translated unit: its blocks, and the functions it declares in the order of their names. -/
structure TranslatedUnit where
  blocks : List Block
  declared : List String
  deriving DecidableEq, Repr

/-- The blocks of a row of commands, up to the first one that has no code. -/
def lowerStatements (unit : String) :
    Generator → List Statement → Except ProgramError (List Block)
  | _, [] => .ok []
  | g, s :: rest =>
    match g.lower s.command with
    | .error cause => .error (.lowering unit s.position cause)
    | .ok (body, g') => do
      return ⟨s.command.text, body⟩ :: (← lowerStatements unit g' rest)

/-- The blocks of a unit. Commands before an error in the text are lowered first, so that the
error that stands first in the text is the one given. -/
def unitBlocks (scope : StaticScope) (unit : String) (readout : Readout) :
    Except ProgramError (List Block) :=
  match lowerStatements unit (.enter scope unit) readout.statements, readout.failure with
  | .error e, _ => .error e
  | .ok _, some e => .error (.reading e)
  | .ok blocks, none => .ok blocks

/-- Translates one unit. -/
def translateUnit (scope : StaticScope) (unit source : String) :
    Report ProgramError TranslatedUnit := do
  Report.progress ("Translating " ++ unit ++ "...")
  let readout := (Reader.ofString source unit).readAll
  let blocks ← Report.ofExcept (unitBlocks scope unit readout)
  if blocks.isEmpty then
    Report.warn (unit ++ ": no commands")
  Report.progress ("  " ++ toString blocks.length ++ " commands")
  return ⟨blocks, readout.reader.declaredByName⟩

/-- The assembly text of a single unit, without a bootstrap. -/
def translateString (settings : Settings) (source unit : String) :
    Report ProgramError String := do
  let scope ← Report.ofExcept (StaticScope.ofSetting settings.staticScope)
  let translated ← translateUnit scope unit source
  return Block.text settings.comments translated.blocks

/-! ## Several units -/

/-- For each function the unit that declared it first. -/
abbrev Owners := List (String × String)

/-- Enters the functions of a unit. One that has an owner already is reported and keeps it. -/
def Owners.enter (unit : String) : Owners → List String → Report ProgramError Owners
  | owners, [] => return owners
  | owners, name :: names =>
    match owners.lookup name with
    | some first => do
      Report.warn ("function " ++ name ++ " defined in both " ++ first ++ " and " ++ unit)
      Owners.enter unit owners names
    | none => Owners.enter unit (owners ++ [(name, unit)]) names

/-- A program can start with a function only if that has an owner. -/
def Owners.checkEntry (owners : Owners) : Setting → Except ProgramError Unit
  | .blank => .error .blankEntry
  | .given name =>
    if (owners.lookup name).isSome then .ok () else .error (.missingEntry name)

/-- Translates units in order, and enters their functions. -/
def translateEach (scope : StaticScope) :
    Owners → List (String × String) → Report ProgramError (List Block × Owners)
  | owners, [] => return ([], owners)
  | owners, (unit, source) :: rest => do
    let translated ← translateUnit scope unit source
    let owners ← owners.enter unit translated.declared
    let (blocks, owners) ← translateEach scope owners rest
    return (translated.blocks ++ blocks, owners)

/-- The block that starts a program. -/
def Bootstrap.block (entry : String) : Block :=
  ⟨"bootstrap: call " ++ entry, Bootstrap.code entry⟩

/-- The assembly text of a program made of units, with or without a bootstrap. -/
def translateUnits (settings : Settings) (units : List (String × String)) (bootstrap : Bool) :
    Report ProgramError String := do
  let scope ← Report.ofExcept (StaticScope.ofSetting settings.staticScope)
  let entry := settings.entry.text
  if bootstrap then
    Report.progress ("Bootstrap: SP=" ++ toString Memory.stackBase ++ ", call " ++ entry)
  let start := if bootstrap then [Bootstrap.block entry] else []
  let (blocks, owners) ← translateEach scope [] units
  if bootstrap then
    Report.ofExcept (owners.checkEntry settings.entry)
  return Block.text settings.comments (start ++ blocks)

end HackVm
