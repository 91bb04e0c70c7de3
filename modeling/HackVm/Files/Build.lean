import HackVm.Files.Access
import HackVm.Text.File
import HackVm.Program.Translate

set_option autoImplicit false

/-! # Building programs from files

A program is a source file or a directory of source files; each file is a unit named by the stem
of its name. The units of a directory come in the order of their whole names, so the order in
which a directory lists its names does not matter. The output is written last: a build that
fails writes nothing. -/

namespace HackVm

open Text

/-! ## Errors -/

inductive BuildError
  | program (cause : ProgramError)
  | decoding (fault : Utf8.Fault)
  | noUnits (directory : String)
  | notAUnit (path : String)
  | notFound (path : String)
  | access (path : String) (cause : AccessError)
  /-- There is no name under which the output could be written. -/
  | blankOutput
  deriving DecidableEq, Repr

def BuildError.message : BuildError → String
  | .program cause => cause.message
  | .decoding fault => fault.message
  | .noUnits directory => "No .vm files found in directory: " ++ directory
  | .notAUnit path => "Input must be a .vm file or a directory: " ++ path
  | .notFound path => "Input not found: " ++ path
  | .access path cause => cause.message path
  | .blankOutput => "expected str, bytes or os.PathLike object, not list"

/-- How errors are told apart for the reader of a message: errors in the form of a text, errors
in what it says, and all others. -/
inductive ErrorClass
  | form
  | content
  | other
  deriving DecidableEq, Repr

def ErrorClass.heading : ErrorClass → String
  | .form => "Syntax error: "
  | .content => "Translation error: "
  | .other => "Error: "

def BuildError.errorClass : BuildError → ErrorClass
  | .program (.reading (.located _ _ _)) => .form
  | .program .blankEntry | .blankOutput => .other
  | .program _ | .decoding _ | .notAUnit _ | .access _ .nullCharacter => .content
  | .noUnits _ | .notFound _ | .access _ _ => .other

/-- Whether a setting that was left blank is at fault. -/
def BuildError.isBlank : BuildError → Bool
  | .program .blankEntry | .blankOutput => true
  | _ => false

/-! ## Reading units -/

/-- The suffix of a source file. -/
def sourceSuffix : String := ".vm"

/-- The suffix of an output file. -/
def outputSuffix : String := ".asm"

/-- The text that bytes stand for, each line ended by one line feed. -/
def decodeText (bytes : ByteArray) : Except BuildError String :=
  match Utf8.decode bytes.data.toList with
  | .ok cs => .ok (String.ofList (unifyLineEnds cs))
  | .error fault => .error (.decoding fault)

variable {m : Type → Type} [Monad m] [FileSystem m]

/-- The result of an access to a path. -/
def granted {α : Type} (path : String) (answer : m (Except AccessError α)) :
    ReportT BuildError m α := do
  match ← answer with
  | .ok a => return a
  | .error cause => throw (.access path cause)

/-- What is at a path. -/
def kindOf (path : Path) : ReportT BuildError m (Option FileKind) :=
  granted path.text (FileSystem.kind path)

/-- Whether a path leads to a source file. -/
def isSourceFile (path : Path) : ReportT BuildError m Bool := do
  return (← kindOf path) = some .file && path.suffix = sourceSuffix

/-- The source files of a directory, in the order of their names. -/
def sourceFiles (directory : Path) : ReportT BuildError m (List Path) := do
  let names ← (FileSystem.entries directory : m (List String))
  let files ← (names.map directory.child).filterM isSourceFile
  return files.mergeSort fun a b => decide (a.name ≤ b.name)

/-- The name and the text of a unit. -/
def readSource (file : Path) : ReportT BuildError m (String × String) := do
  ReportT.progress ("Reading " ++ file.text ++ "...")
  let bytes ← granted file.text (FileSystem.read file)
  let text ← Report.ofExcept (decodeText bytes)
  return (file.stem, text)

/-- The units of a program. -/
def collectUnits (input : String) : ReportT BuildError m (List (String × String)) := do
  let path := Path.ofString input
  let files ← match ← kindOf path with
    | some .directory =>
      let files ← sourceFiles path
      if files.isEmpty then throw (.noUnits input)
      pure files
    | some .file =>
      if path.suffix ≠ sourceSuffix then throw (.notAUnit input)
      pure [path]
    | none => throw (.notFound input)
  files.mapM readSource

/-! ## Translating and writing -/

/-- The assembly text of a program. Unless the settings decide it, the programs in directories
start with a bootstrap. -/
def translatePath (settings : Settings) (input : String) : ReportT BuildError m String := do
  let units ← collectUnits input
  let bootstrap ← match settings.bootstrap with
    | some choice => pure choice
    | none => pure (decide ((← kindOf (Path.ofString input)) = some .directory))
  ((translateUnits settings units bootstrap).mapError BuildError.program :
    Report BuildError String)

/-- Where the output goes if nothing else is said: beside a file, and into a directory under the
directory's own name. -/
def defaultOutput (input : String) : ReportT BuildError m String := do
  let path := Path.ofString input
  match ← kindOf path with
  | some .directory =>
    let name ← (FileSystem.ownName path : m String)
    return (path.child (name ++ outputSuffix)).text
  | _ => return (path.withSuffix outputSuffix).text

/-- Writes an assembly text where a setting says. -/
def writeOutput (text : String) : Setting → ReportT BuildError m Unit
  | .given path => granted path (FileSystem.write path text)
  | .blank => throw .blankOutput

/-- Where the output goes. -/
def outputTarget (input : String) : Option Setting → ReportT BuildError m Setting
  | some setting => pure setting
  | none => Setting.given <$> defaultOutput input

/-- Translates a program and writes its assembly text where a setting says. -/
def buildInto (settings : Settings) (input : String) (target : Setting) :
    ReportT BuildError m Unit := do
  let text ← translatePath settings input
  ReportT.progress ("Writing " ++ target.text ++ "...")
  writeOutput text target
  let lines := text.toList.count '\n'
  ReportT.progress ("Translation successful: " ++ toString lines ++ " lines")

/-- Makes a notice of an error, unless a blank setting causes it. -/
def settle (e : BuildError) : ReportT BuildError m Unit := do
  if e.isBlank then throw e
  ReportT.note (.failure (e.errorClass.heading ++ e.message))

/-- Translates a program and writes its assembly text; tells whether that succeeded. Errors become
notices, except for those that a blank setting causes and those met while the default output is
looked for. -/
def translateFile (settings : Settings) (input : String) (output : Option Setting) :
    ReportT BuildError m Bool := do
  let target ← outputTarget input output
  try
    buildInto settings input target
    pure true
  catch e =>
    settle e
    pure false

end HackVm
