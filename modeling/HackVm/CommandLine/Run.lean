import HackVm.CommandLine.Arguments
import HackVm.Files.Build

set_option autoImplicit false

/-! # Running a command line

A run ends with an exit code: 0 if the program was built or help was asked for, 1 if it could not
be built, 2 if the command line makes no sense. -/

namespace HackVm

/-- How a run ends. -/
inductive Outcome
  | help
  | usage (error : UsageError)
  /-- The build was tried; `verbose` tells whether all its notices are shown. -/
  | built (verbose : Bool) (report : Report BuildError Bool)

namespace Outcome

def exitCode : Outcome → Nat
  | .help => 0
  | .usage _ => 2
  | .built _ report =>
    match report.result with
    | .ok true => 0
    | _ => 1

/-- What is shown of the run, beside help. -/
def shown : Outcome → String
  | .help => ""
  | .usage error => error.message ++ "\n"
  | .built verbose report => Notice.text verbose report.notices

/-- The error that the build ended with outside of its notices. -/
def escaped? : Outcome → Option BuildError
  | .built _ report =>
    match report.result with
    | .error e => some e
    | .ok _ => none
  | _ => none

end Outcome

/-- Does what a command line asks for. -/
def runCommandLine {m : Type → Type} [Monad m] [FileSystem m] (arguments : List String) :
    m Outcome :=
  match Arguments.parse arguments with
  | .error .help => pure .help
  | .error (.usage e) => pure (.usage e)
  | .ok a => do
    let report ← (translateFile a.settings a.input a.output : ReportT BuildError m Bool).run
    return .built a.settings.verbose report

end HackVm
