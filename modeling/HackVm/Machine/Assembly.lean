set_option autoImplicit false

/-! # Hack assembly

The Hack computer has an address register `A`, a data register `D`, and the memory cell `M` that
`A` points at. A line of assembly loads the address register, computes, or marks a place in the
program. The types hold the instructions of the machine and nothing else: of the two inputs of a
binary computation one is always `D` and the other never is. -/

namespace HackVm

/-- What the arithmetic unit reads from and writes to. -/
inductive Register
  | a
  | d
  | m
  deriving DecidableEq, Repr

def Register.text : Register → String
  | .a => "A"
  | .d => "D"
  | .m => "M"

/-- The input of the arithmetic unit beside `D`. -/
inductive Source
  | a
  | m
  deriving DecidableEq, Repr

def Source.text : Source → String
  | .a => "A"
  | .m => "M"

inductive BinaryOp
  | add
  | sub
  | and
  | or
  deriving DecidableEq, Repr

def BinaryOp.text : BinaryOp → String
  | .add => "+"
  | .sub => "-"
  | .and => "&"
  | .or => "|"

/-- What the arithmetic unit can compute. -/
inductive Computation
  | zero
  | one
  | minusOne
  | copy (x : Register)
  | not (x : Register)
  | neg (x : Register)
  | succ (x : Register)
  | pred (x : Register)
  /-- `D` on the left. -/
  | dWith (op : BinaryOp) (y : Source)
  /-- `D` on the right. -/
  | withD (x : Source) (op : BinaryOp)
  deriving DecidableEq, Repr

def Computation.text : Computation → String
  | .zero => "0"
  | .one => "1"
  | .minusOne => "-1"
  | .copy x => x.text
  | .not x => "!" ++ x.text
  | .neg x => "-" ++ x.text
  | .succ x => x.text ++ "+1"
  | .pred x => x.text ++ "-1"
  | .dWith op y => "D" ++ op.text ++ y.text
  | .withD x op => x.text ++ op.text ++ "D"

/-- When an instruction jumps, by the sign of what it computed. -/
inductive Jump
  | never
  | gt
  | eq
  | ge
  | lt
  | ne
  | le
  | always
  deriving DecidableEq, Repr

def Jump.text : Jump → String
  | .never => ""
  | .gt => ";JGT"
  | .eq => ";JEQ"
  | .ge => ";JGE"
  | .lt => ";JLT"
  | .ne => ";JNE"
  | .le => ";JLE"
  | .always => ";JMP"

/-- Where a result goes, any of the three registers. -/
structure Destination where
  a : Bool
  m : Bool
  d : Bool
  deriving DecidableEq, Repr

namespace Destination

def none : Destination := ⟨false, false, false⟩

def toA : Destination := ⟨true, false, false⟩

def toM : Destination := ⟨false, true, false⟩

def toD : Destination := ⟨false, false, true⟩

def toAM : Destination := ⟨true, true, false⟩

def text (t : Destination) : String :=
  if t = none then ""
  else (if t.a then "A" else "") ++ (if t.m then "M" else "") ++ (if t.d then "D" else "") ++ "="

end Destination

/-- A line of assembly. -/
inductive Line
  /-- Loads the value of a symbol into `A`. -/
  | symbol (name : String)
  /-- Loads a number into `A`. -/
  | number (n : Int)
  | compute (destination : Destination) (computation : Computation) (jump : Jump)
  /-- Gives a symbol the address of the next instruction. -/
  | label (name : String)
  deriving DecidableEq, Repr

namespace Line

/-- Computes without jumping. -/
def assign (destination : Destination) (computation : Computation) : Line :=
  .compute destination computation .never

/-- Jumps by the sign of `computation`. -/
def jump (computation : Computation) (condition : Jump) : Line :=
  .compute .none computation condition

def text : Line → String
  | .symbol name => "@" ++ name
  | .number n => "@" ++ toString n
  | .compute destination computation jump => destination.text ++ computation.text ++ jump.text
  | .label name => "(" ++ name ++ ")"

/-- The symbol that a line defines. -/
def defines? : Line → Option String
  | .label name => some name
  | _ => .none

end Line

end HackVm
