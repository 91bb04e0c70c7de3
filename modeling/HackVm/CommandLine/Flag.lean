import HackVm.Lowering.Generator

set_option autoImplicit false

/-! # Flags of the command line

Each flag has one or two names and takes a value or none. A name with two dashes may be cut
short as long as no other flag begins alike; a name with one dash is a single letter. -/

namespace HackVm

open Text

inductive Flag
  | help
  | output
  | entry
  | bootstrap
  | noBootstrap
  | noComments
  | staticScope
  | verbose
  deriving DecidableEq, Repr

namespace Flag

def all : List Flag :=
  [.help, .output, .entry, .bootstrap, .noBootstrap, .noComments, .staticScope, .verbose]

def names : Flag → List String
  | .help => ["-h", "--help"]
  | .output => ["-o", "--output"]
  | .entry => ["--entry"]
  | .bootstrap => ["--bootstrap"]
  | .noBootstrap => ["--no-bootstrap"]
  | .noComments => ["--no-comments"]
  | .staticScope => ["--static-scope"]
  | .verbose => ["--verbose"]

def takesValue : Flag → Bool
  | .output | .entry | .staticScope => true
  | _ => false

/-- All names of a flag, as messages show them. -/
def title (f : Flag) : String := "/".intercalate f.names

/-- Every name with its flag. -/
def spellings : List (String × Flag) :=
  all.flatMap fun f => f.names.map fun name => (name, f)

def ofName? (name : String) : Option Flag := spellings.lookup name

theorem ofName?_of_mem {f : Flag} {name : String} (h : name ∈ f.names) : ofName? name = some f := by
  cases f <;> simp only [names, List.mem_cons, List.not_mem_nil, or_false] at h
  all_goals rcases h with rfl | rfl <;> decide

end Flag

/-! ## Errors -/

/-- What is wrong with a command line. -/
inductive UsageError
  | ambiguous (argument : String) (names : List String)
  | missingValue (flag : Flag)
  | unwantedValue (flag : Flag) (value : String)
  | invalidChoice (flag : Flag) (value : String) (choices : List String)
  | conflict (flag other : Flag)
  | missingInput
  | unrecognized (arguments : List String)
  deriving DecidableEq, Repr

def UsageError.message : UsageError → String
  | .ambiguous argument names =>
    "ambiguous option: " ++ argument ++ " could match " ++ ", ".intercalate names
  | .missingValue flag => about flag "expected one argument"
  | .unwantedValue flag value => about flag ("ignored explicit argument " ++ quoted value)
  | .invalidChoice flag value choices =>
    about flag ("invalid choice: " ++ quoted value ++ " (choose from "
      ++ ", ".intercalate (choices.map quoted) ++ ")")
  | .conflict flag other => about flag ("not allowed with argument " ++ other.title)
  | .missingInput => "the following arguments are required: input"
  | .unrecognized arguments => "unrecognized arguments: " ++ " ".intercalate arguments
where
  about (flag : Flag) (message : String) : String :=
    "argument " ++ flag.title ++ ": " ++ message

end HackVm
