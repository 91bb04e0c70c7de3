import HackVm.Machine.Memory
import HackVm.Text.Position

set_option autoImplicit false

/-! # Commands of the stack machine

A command is one step of a program for the stack machine: it computes on the top of the stack,
moves a word between the stack and a memory segment, or directs the flow. Names in a command
are complete: a label already carries its function, and a call the address it returns to.

Each operation and each segment has one keyword, and `ofKeyword?` reads exactly these back. -/

namespace HackVm

/-! ## Operations -/

/-- What can be computed on the top of the stack. -/
inductive Operation
  | add
  | sub
  | neg
  | eq
  | gt
  | lt
  | and
  | or
  | not
  deriving DecidableEq, Repr

namespace Operation

def all : List Operation := [.add, .sub, .neg, .eq, .gt, .lt, .and, .or, .not]

def keyword : Operation → String
  | .add => "add"
  | .sub => "sub"
  | .neg => "neg"
  | .eq => "eq"
  | .gt => "gt"
  | .lt => "lt"
  | .and => "and"
  | .or => "or"
  | .not => "not"

/-- Unary operations change the top word in place. -/
def isUnary : Operation → Bool
  | .neg | .not => true
  | _ => false

/-- Comparisons leave a truth value. -/
def isComparison : Operation → Bool
  | .eq | .gt | .lt => true
  | _ => false

def ofKeyword? (s : String) : Option Operation :=
  all.find? (·.keyword == s)

theorem ofKeyword?_eq_some_iff {s : String} {op : Operation} :
    ofKeyword? s = some op ↔ s = op.keyword := by
  constructor
  · intro h
    have found := List.find?_some (p := fun o : Operation => o.keyword == s) h
    exact (beq_iff_eq.mp found).symm
  · rintro rfl
    cases op <;> decide

end Operation

/-! ## Segments -/

/-- The memory segments that words are pushed from and popped to. -/
inductive Segment
  | based (base : Base)
  | constant
  | static
  | pointer
  | temp
  deriving DecidableEq, Repr

namespace Segment

def all : List Segment := Base.all.map .based ++ [.constant, .static, .pointer, .temp]

def keyword : Segment → String
  | .based .locals => "local"
  | .based .arguments => "argument"
  | .based .this => "this"
  | .based .that => "that"
  | .constant => "constant"
  | .static => "static"
  | .pointer => "pointer"
  | .temp => "temp"

/-- Whether the segment is found through a base cell. -/
def isIndirect : Segment → Bool
  | .based _ => true
  | _ => false

def ofKeyword? (s : String) : Option Segment :=
  all.find? (·.keyword == s)

theorem ofKeyword?_eq_some_iff {s : String} {segment : Segment} :
    ofKeyword? s = some segment ↔ s = segment.keyword := by
  constructor
  · intro h
    have found := List.find?_some (p := fun g : Segment => g.keyword == s) h
    exact (beq_iff_eq.mp found).symm
  · rintro rfl
    cases segment with
    | based base => cases base <;> decide
    | _ => decide

end Segment

/-! ## Commands -/

inductive Command
  | arithmetic (op : Operation)
  | push (segment : Segment) (index : Int)
  | pop (segment : Segment) (index : Int)
  | label (name : String)
  | goto (name : String)
  /-- Jumps if the word taken from the stack is not zero. -/
  | ifGoto (name : String)
  /-- Begins a function and makes room for its locals. -/
  | function (name : String) (locals : Int)
  /-- Calls a function whose arguments were pushed. -/
  | call (callee : String) (arguments : Int) (returnAddress : String)
  | ret
  deriving DecidableEq, Repr

/-- A command with the place of its first token. -/
structure Statement where
  command : Command
  position : Text.Position
  deriving DecidableEq, Repr

namespace Command

/-- The command as it is written in a program, with complete names and without the address that
a call returns to. -/
def text : Command → String
  | .arithmetic op => op.keyword
  | .push segment index => "push " ++ segment.keyword ++ " " ++ toString index
  | .pop segment index => "pop " ++ segment.keyword ++ " " ++ toString index
  | .label name => "label " ++ name
  | .goto name => "goto " ++ name
  | .ifGoto name => "if-goto " ++ name
  | .function name locals => "function " ++ name ++ " " ++ toString locals
  | .call callee arguments _ => "call " ++ callee ++ " " ++ toString arguments
  | .ret => "return"

end Command

end HackVm
