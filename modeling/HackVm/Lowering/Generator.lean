import HackVm.Command.Instruction
import HackVm.Lowering.Sequence
import HackVm.Text.Quoted

set_option autoImplicit false

/-! # Code for commands

A generator gives each command its code sequence. It knows the unit that is being translated,
whose name goes into the symbols of static variables and of comparisons, and it numbers the
comparisons of the unit from one. Every command has code except those that name a cell outside
of a segment of fixed size, and those that pop into a constant. -/

namespace HackVm

open Text

/-! ## Static variables -/

/-- Who shares static variables: the commands of a unit, or all commands. -/
inductive StaticScope
  | unit
  | global
  deriving DecidableEq, Repr

namespace StaticScope

def all : List StaticScope := [.unit, .global]

def name : StaticScope → String
  | .unit => "unit"
  | .global => "global"

def ofName? (s : String) : Option StaticScope :=
  all.find? (·.name == s)

/-- The symbol of a static variable. -/
def symbol (scope : StaticScope) (unit : String) (index : Int) : String :=
  match scope with
  | .unit => unit ++ "." ++ toString index
  | .global => "Static." ++ toString index

end StaticScope

/-! ## Commands without code -/

inductive LoweringError
  /-- A cell that a segment of fixed size does not have. -/
  | cell (command : Command) (cause : Memory.CellError)
  /-- The constant segment cannot be written. -/
  | popConstant (index : Int)
  deriving DecidableEq, Repr

def LoweringError.message : LoweringError → String
  | .cell command cause => command.text ++ ": " ++ cause.message
  | .popConstant index => "invalid operation: " ++ (Command.pop .constant index).text

/-! ## Generators -/

structure Generator where
  unit : String
  statics : StaticScope
  /-- The comparisons of the unit so far. -/
  comparisons : Nat
  deriving DecidableEq, Repr

namespace Generator

/-- A generator at the start of a unit. -/
def enter (statics : StaticScope) (unit : String) : Generator := ⟨unit, statics, 0⟩

/-- Goes on with another unit, in which comparisons are numbered afresh. -/
def setUnit (g : Generator) (unit : String) : Generator := .enter g.statics unit

/-- The label of a comparison. -/
def comparisonLabel (unit : String) (number : Nat) : String :=
  unit ++ "$cmp." ++ toString number

def staticSymbol (g : Generator) (index : Int) : String := g.statics.symbol g.unit index

/-- The code of a computation, and the generator behind it. -/
def arithmetic (g : Generator) (op : Operation) : List Line × Generator :=
  match op with
  | .add => (Sequence.binary .add, g)
  | .sub => (Sequence.binary .sub, g)
  | .and => (Sequence.binary .and, g)
  | .or => (Sequence.binary .or, g)
  | .neg => (Sequence.unary (.neg .m), g)
  | .not => (Sequence.unary (.not .m), g)
  | .eq => compare .eq
  | .gt => compare .gt
  | .lt => compare .lt
where
  compare (condition : Jump) : List Line × Generator :=
    let number := g.comparisons + 1
    let label := comparisonLabel g.unit number
    (Sequence.comparison condition label, { g with comparisons := number })

/-- The code that pushes a cell of a segment. -/
def push (g : Generator) (segment : Segment) (index : Int) : Except LoweringError (List Line) :=
  let cell := (Except.mapError (LoweringError.cell (.push segment index)) ·)
  match segment with
  | .based base => .ok (Sequence.pushBased base index)
  | .constant => .ok (Sequence.pushConstant index)
  | .static => .ok (Sequence.pushCell (g.staticSymbol index))
  | .pointer => Sequence.pushCell <$> cell (Memory.pointerCell index)
  | .temp => Sequence.pushCell <$> cell (Memory.tempCell index)

/-- The code that pops into a cell of a segment. -/
def pop (g : Generator) (segment : Segment) (index : Int) : Except LoweringError (List Line) :=
  let cell := (Except.mapError (LoweringError.cell (.pop segment index)) ·)
  match segment with
  | .based base => .ok (Sequence.popBased base index)
  | .constant => .error (.popConstant index)
  | .static => .ok (Sequence.popCell (g.staticSymbol index))
  | .pointer => Sequence.popCell <$> cell (Memory.pointerCell index)
  | .temp => Sequence.popCell <$> cell (Memory.tempCell index)

/-- The code of a command, and the generator behind it. -/
def lower (g : Generator) : Command → Except LoweringError (List Line × Generator)
  | .arithmetic op => .ok (g.arithmetic op)
  | .push segment index => (·, g) <$> g.push segment index
  | .pop segment index => (·, g) <$> g.pop segment index
  | .label name => .ok ([.label name], g)
  | .goto name => .ok (Sequence.goto name, g)
  | .ifGoto name => .ok (Sequence.ifGoto name, g)
  | .function name locals => .ok (Sequence.function name locals, g)
  | .call callee arguments returnAddress =>
    .ok (Sequence.call callee arguments returnAddress, g)
  | .ret => .ok (Sequence.ret, g)

end Generator

/-! ## The start of a program -/

namespace Bootstrap

/-- The function in whose name the first call is made. No name in a program begins with `$`. -/
def function : String := "$bootstrap"

/-- Where the entry function returns to. -/
def haltLabel : String := (Scope.enter function).returnAddress

/-- Sets the stack pointer and calls the entry function; if that returns, the program stays in a
loop. -/
def code (entry : String) : List Line :=
  [.number Memory.stackBase, .assign .toD (.copy .a), Sequence.atStackPointer,
    .assign .toM (.copy .d)] ++
    Sequence.call entry 0 haltLabel ++ Sequence.goto haltLabel

end Bootstrap

end HackVm
