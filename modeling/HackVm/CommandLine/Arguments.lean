import HackVm.CommandLine.Word
import HackVm.Program.Translate

set_option autoImplicit false

/-! # What a command line asks for

The words are taken from the left. The first operand is the input; a flag takes its value from
the word behind it unless it brought one along, and a later value of the same flag replaces an
earlier one. What is left over is an error, but only when all words have been taken, and asking
for help comes before whatever stands behind it. -/

namespace HackVm

/-- What a command line has asked for. -/
structure Arguments where
  input : String
  output : Option Setting
  settings : Settings
  deriving DecidableEq, Repr

/-- Why no program is to be built. -/
inductive Halt
  | help
  | usage (error : UsageError)
  deriving DecidableEq, Repr

namespace Arguments

/-- What a value sets. The mark `--` is no name, even as a value. -/
def settingOf (value : String) : Setting :=
  if value = "--" then .blank else .given value

/-- The words taken so far. -/
structure Partial where
  input : Option String := none
  output : Option Setting := none
  settings : Settings := {}
  leftOver : List String := []
  deriving DecidableEq, Repr

namespace Partial

/-- Chooses whether the program has a bootstrap; the two flags exclude each other. -/
def chooseBootstrap (p : Partial) (flag other : Flag) (choice : Bool) : Except Halt Partial :=
  if p.settings.bootstrap = some !choice then .error (.usage (.conflict flag other))
  else .ok { p with settings := { p.settings with bootstrap := some choice } }

/-- Takes a flag, with its value if it has one. -/
def take (p : Partial) (flag : Flag) (value : String) : Except Halt Partial :=
  match flag with
  | .help => .error .help
  | .output => .ok { p with output := some (settingOf value) }
  | .entry => .ok { p with settings := { p.settings with entry := settingOf value } }
  | .bootstrap => p.chooseBootstrap .bootstrap .noBootstrap true
  | .noBootstrap => p.chooseBootstrap .noBootstrap .bootstrap false
  | .noComments => .ok { p with settings := { p.settings with comments := false } }
  | .staticScope =>
    let names := StaticScope.all.map StaticScope.name
    let setting := settingOf value
    if setting = .blank ∨ value ∈ names then
      .ok { p with settings := { p.settings with staticScope := setting } }
    else .error (.usage (.invalidChoice .staticScope value names))
  | .verbose => .ok { p with settings := { p.settings with verbose := true } }

/-- Sets an argument aside that nothing asks for. -/
def leave (p : Partial) (argument : String) : Partial :=
  { p with leftOver := p.leftOver ++ [argument] }

end Partial

/-! ## Letters behind a letter -/

/-- How a flag with an attached text ends. -/
inductive Ending
  /-- The text is the value of the flag. -/
  | value (flag : Flag) (text : List Char)
  /-- The text ends in the letter of another flag. -/
  | letter (flag : Flag)
  deriving DecidableEq, Repr

/-- Takes apart the text attached to a flag. If the flag takes a value, the text is the value.
Behind a letter that takes none stand letters of further flags; any other flag admits no text. -/
def expand (flag : Flag) (short : Bool) : List Char → Except UsageError (List Flag × Ending)
  | [] =>
    if flag.takesValue then .ok ([], .value flag []) else .error (.unwantedValue flag "")
  | c :: cs =>
    if flag.takesValue then .ok ([], .value flag (c :: cs))
    else match if short then Flag.ofName? (String.ofList ['-', c]) else none, cs with
      | none, _ => .error (.unwantedValue flag (String.ofList (c :: cs)))
      | some other, [] => .ok ([flag], .letter other)
      | some other, d :: rest => do
        let (flags, ending) ← expand other true (d :: rest)
        return (flag :: flags, ending)

/-! ## All words -/

/-- The words behind the input, without the mark that may stand next to it. -/
def dropMark : List Word → List Word
  | .endOfFlags :: rest => rest
  | words => words

theorem length_dropMark (words : List Word) : (dropMark words).length ≤ words.length := by
  unfold dropMark
  split <;> simp

/-- Whether the next word is an operand. -/
def startsWithOperand : List Word → Bool
  | .operand _ :: _ => true
  | _ => false

/-- The value for a flag from the words behind it, and the words behind that. -/
def valueFor (flag : Flag) (words : List Word) : Except Halt (String × List Word) :=
  if flag.takesValue then
    match words with
    | .operand value :: rest => .ok (value, rest)
    | _ => .error (.usage (.missingValue flag))
  else .ok ("", words)

theorem length_valueFor {flag : Flag} {words rest : List Word} {value : String}
    (h : valueFor flag words = .ok (value, rest)) : rest.length ≤ words.length := by
  unfold valueFor at h
  repeat' split at h
  all_goals simp_all

/-- Takes the words from the left. The mark that ends the flags counts as left over unless it
stands next to the input. -/
def takeWords (p : Partial) : List Word → Except Halt Partial
  | [] => .ok p
  | .operand text :: rest =>
    if p.input.isNone then
      have := length_dropMark rest
      takeWords { p with input := some text } (dropMark rest)
    else takeWords (p.leave text) rest
  | .endOfFlags :: rest =>
    if p.input.isNone && startsWithOperand rest then takeWords p rest
    else takeWords (p.leave "--") rest
  | .unknown text :: rest => takeWords (p.leave text) rest
  | .flag flag _ none :: rest => takeFlags p [] flag rest
  | .flag flag short (some attached) :: rest =>
    match expand flag short attached with
    | .error e => .error (.usage e)
    | .ok (flags, .value last text) => do
      let p ← flags.foldlM (·.take · "") p
      takeWords (← p.take last (String.ofList text)) rest
    | .ok (flags, .letter last) => takeFlags p flags last rest
termination_by words => 2 * words.length
where
  /-- Takes flags without a value, and then one that looks for its value in the words behind. A
  missing value is found before any of them is taken. -/
  takeFlags (p : Partial) (flags : List Flag) (last : Flag) (words : List Word) :
      Except Halt Partial :=
    match _h : valueFor last words with
    | .error e => .error e
    | .ok (value, rest) => do
      let p ← flags.foldlM (·.take · "") p
      takeWords (← p.take last value) rest
  termination_by 2 * words.length + 1
  decreasing_by
    have := length_valueFor _h
    omega

/-- What the arguments ask for. -/
def parse (arguments : List String) : Except Halt Arguments :=
  match Word.ofArguments arguments with
  | .error e => .error (.usage e)
  | .ok words => do
    let p ← takeWords {} words
    match p.input, p.leftOver with
    | none, _ => throw (.usage .missingInput)
    | some input, [] => return ⟨input, p.output, p.settings⟩
    | some _, leftOver => throw (.usage (.unrecognized leftOver))

end Arguments

end HackVm
