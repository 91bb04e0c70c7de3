import HackVm.CommandLine.Flag
import HackVm.Text.Class

set_option autoImplicit false

/-! # Words of the command line

Each argument is a word of one of four sorts, decided by the argument alone: an operand, a flag,
the mark `--` that ends the flags, or something that looks like a flag and is none. A flag may
bring its value along, behind an equals sign or, if its name is one letter, directly behind the
name. Arguments with a dash are operands if they are a lone dash, a negative number, or hold a
space. -/

namespace HackVm

open Text

inductive Word
  | operand (text : String)
  /-- A flag, `short` if it was named by one letter, with the text that is part of the same
  argument. -/
  | flag (flag : Flag) (short : Bool) (attached : Option (List Char))
  | unknown (text : String)
  | endOfFlags
  deriving DecidableEq, Repr

namespace Word

/-- Whether an argument is a negative number: a dash, digits, and perhaps a point before the last
of them. A line feed may follow. -/
def isNegativeNumber (argument : String) : Bool :=
  match argument.toList with
  | '-' :: cs =>
    let cs := if cs.getLast? = some '\n' then cs.dropLast else cs
    let whole := cs.takeWhile isDecimalDigit
    match cs.dropWhile isDecimalDigit with
    | [] => !whole.isEmpty
    | '.' :: fraction => !fraction.isEmpty && fraction.all isDecimalDigit
    | _ => false
  | _ => false

/-- An argument cut at its first equals sign. -/
def cutEquals (cs : List Char) : List Char × Option (List Char) :=
  match cs.dropWhile (· ≠ '=') with
  | [] => (cs, none)
  | _ :: value => (cs.takeWhile (· ≠ '='), some value)

/-- The flags that an argument can mean, with the full name of each. -/
def candidates (cs : List Char) : List (String × Word) :=
  match cs with
  | '-' :: '-' :: _ =>
    let (start, attached) := cutEquals cs
    let matching := Flag.spellings.filter fun (name, _) => start.isPrefixOf name.toList
    matching.map fun (name, f) => (name, .flag f false attached)
  | '-' :: c :: value =>
    let name := String.ofList ['-', c]
    match Flag.ofName? name with
    | some f => [(name, .flag f true (some value))]
    | none => []
  | _ => []

/-- The sort of an argument that stands before the mark `--`. -/
def ofArgument (argument : String) : Except UsageError Word :=
  let cs := argument.toList
  let (start, attached) := cutEquals cs
  let isShort (name : List Char) : Bool := name.length = 2
  if cs.head? ≠ some '-' ∨ cs.length = 1 then .ok (.operand argument)
  else match Flag.ofName? argument, Flag.ofName? (String.ofList start) with
    | some f, _ => .ok (.flag f (isShort cs) none)
    | none, some f => .ok (.flag f (isShort start) attached)
    | none, none =>
      match candidates cs with
      | [(_, word)] => .ok word
      | [] =>
        if isNegativeNumber argument || cs.contains ' ' then .ok (.operand argument)
        else .ok (.unknown argument)
      | several => .error (.ambiguous argument (several.map (·.1)))

/-- The sorts of all arguments. Behind the mark `--` all are operands. -/
def ofArguments : List String → Except UsageError (List Word)
  | [] => .ok []
  | argument :: rest =>
    if argument = "--" then .ok (.endOfFlags :: rest.map .operand)
    else do
      let word ← ofArgument argument
      return word :: (← ofArguments rest)

end Word

end HackVm
