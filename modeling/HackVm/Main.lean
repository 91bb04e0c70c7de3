import HackVm.CommandLine.Run

set_option autoImplicit false

/-! # The command line program

Connects the translator to the files of the system. -/

namespace HackVm

/-- The reason for a refused access. -/
def AccessError.ofIO : IO.Error → AccessError
  | .noFileOrDirectory _ _ _ | .noSuchThing _ _ _ => .missing
  | .inappropriateType _ 20 _ => .notDirectory
  | .inappropriateType _ 21 _ => .isDirectory
  | .invalidArgument _ 36 _ => .nameTooLong
  | e => .refused 0 (toString e)

/-- Tries an access. -/
def attempt {α : Type} (action : IO α) : IO (Except AccessError α) := do
  try
    return .ok (← action)
  catch e =>
    return .error (.ofIO e)

instance : FileSystem IO where
  kind path := do
    let place := (← IO.currentDir) / path.text
    if ← place.isDir then return .ok (some .directory)
    else if ← place.pathExists then return .ok (some .file)
    else return .ok none
  entries path := do
    let place := (← IO.currentDir) / path.text
    return (← place.readDir).toList.map (·.fileName)
  ownName path := do
    return (← IO.FS.realPath path.text).fileName.getD ""
  read path := attempt (IO.FS.readBinFile path.text)
  write path text := attempt (IO.FS.writeFile path text)

/-- The way in which the program is called. -/
def usage : String :=
  "usage: hackvm [-h] [-o OUTPUT] [--entry ENTRY] [--bootstrap | --no-bootstrap]\n"
    ++ "              [--no-comments] [--static-scope unit|global] [--verbose] input\n"

end HackVm

open HackVm in
/-- Translates stack machine programs to Hack assembly. -/
def main (arguments : List String) : IO UInt32 := do
  let outcome : Outcome ← runCommandLine arguments
  match outcome with
  | .help => IO.print usage
  | .usage _ => IO.eprint (usage ++ "hackvm: error: ")
  | .built _ _ => pure ()
  IO.eprint outcome.shown
  if let some e := outcome.escaped? then
    IO.eprintln (e.errorClass.heading ++ e.message)
  return outcome.exitCode.toUInt32
