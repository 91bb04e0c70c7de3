import HackVm.Command.Basic
import HackVm.Text.Quoted

set_option autoImplicit false

/-! # Kinds and operands

Every command is of one kind and has a row of operands. Kind and operands determine the command
(`Command.kind_operands_inj`), so a command can be shown by them: `Push(<Segment.LOCAL:
'local'>, 3)`. -/

namespace HackVm

open Text

inductive CommandKind
  | arithmetic
  | push
  | pop
  | label
  | goto
  | ifGoto
  | function
  | call
  | ret
  deriving DecidableEq, Repr

namespace CommandKind

def all : List CommandKind :=
  [.arithmetic, .push, .pop, .label, .goto, .ifGoto, .function, .call, .ret]

/-- The name under which a kind is listed. -/
def name : CommandKind → String
  | .arithmetic => "ARITHMETIC"
  | .push => "PUSH"
  | .pop => "POP"
  | .label => "LABEL"
  | .goto => "GOTO"
  | .ifGoto => "IF_GOTO"
  | .function => "FUNCTION"
  | .call => "CALL"
  | .ret => "RETURN"

/-- The name under which a command of the kind is shown with its operands. -/
def constructorName : CommandKind → String
  | .arithmetic => "Arithmetic"
  | .push => "Push"
  | .pop => "Pop"
  | .label => "Label"
  | .goto => "Goto"
  | .ifGoto => "IfGoto"
  | .function => "Function"
  | .call => "Call"
  | .ret => "Return"

end CommandKind

/-- An operand of a command. -/
inductive Operand
  | operation (op : Operation)
  | segment (segment : Segment)
  | integer (n : Int)
  | name (s : String)
  deriving DecidableEq, Repr

/-- The keyword in capitals. -/
def Operation.name (op : Operation) : String := op.keyword.toUpper

/-- The keyword in capitals. -/
def Segment.name (segment : Segment) : String := segment.keyword.toUpper

/-- Keywords are shown with the name of their class, names are quoted. -/
def Operand.describe : Operand → String
  | .operation op => "<ArithmeticOp." ++ op.name ++ ": " ++ quoted op.keyword ++ ">"
  | .segment s => "<Segment." ++ s.name ++ ": " ++ quoted s.keyword ++ ">"
  | .integer n => toString n
  | .name s => quoted s

namespace Command

def kind : Command → CommandKind
  | .arithmetic _ => .arithmetic
  | .push _ _ => .push
  | .pop _ _ => .pop
  | .label _ => .label
  | .goto _ => .goto
  | .ifGoto _ => .ifGoto
  | .function _ _ => .function
  | .call _ _ _ => .call
  | .ret => .ret

def operands : Command → List Operand
  | .arithmetic op => [.operation op]
  | .push segment index => [.segment segment, .integer index]
  | .pop segment index => [.segment segment, .integer index]
  | .label name => [.name name]
  | .goto name => [.name name]
  | .ifGoto name => [.name name]
  | .function name locals => [.name name, .integer locals]
  | .call callee arguments returnAddress =>
    [.name callee, .integer arguments, .name returnAddress]
  | .ret => []

def describe (c : Command) : String :=
  c.kind.constructorName ++ "(" ++ ", ".intercalate (c.operands.map Operand.describe) ++ ")"

/-- Kind and operands determine a command. -/
theorem kind_operands_inj {c d : Command} (hk : c.kind = d.kind) (ho : c.operands = d.operands) :
    c = d := by
  cases c <;> cases d <;> simp_all [kind, operands]

end Command

end HackVm
