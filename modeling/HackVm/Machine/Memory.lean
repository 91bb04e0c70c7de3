set_option autoImplicit false

/-! # The memory map

The stack machine lives in the low cells of the Hack computer's memory:

    0          SP              the stack pointer
    1 to 4     LCL ARG THIS THAT  the bases of the four segments that move
    5 to 12    R5 to R12       the temp segment
    13 to 15   R13 to R15      scratch cells of the generated code
    16 to 255                  static variables
    256 on                     the stack

Cells are named by the symbols that every Hack assembler predefines. -/

namespace HackVm

/-- The cells that hold the base of a segment. -/
inductive Base
  | locals
  | arguments
  | this
  | that
  deriving DecidableEq, Repr

namespace Base

/-- All base cells, in the order in which a call saves them. -/
def all : List Base := [.locals, .arguments, .this, .that]

def symbol : Base → String
  | .locals => "LCL"
  | .arguments => "ARG"
  | .this => "THIS"
  | .that => "THAT"

end Base

namespace Memory

def stackPointer : String := "SP"

/-- The first cell of the stack. -/
def stackBase : Nat := 256

/-- The words of a call frame between the last argument and the first local: the return address
and the saved base cells. -/
def frameSize : Nat := 1 + Base.all.length

/-- The first cell of the temp segment. -/
def tempBase : Nat := 5

/-- The number of cells of the temp segment. -/
def tempSize : Nat := 8

/-- Where a pop into a moving segment keeps its target. -/
def scratchAddress : String := "R13"

/-- Where a return keeps the frame it takes down. -/
def scratchFrame : String := "R13"

/-- Where a return keeps the address it goes back to. -/
def scratchReturn : String := "R14"

/-- The base cells that the pointer segment consists of. -/
def pointerBases : List Base := [.this, .that]

/-- The largest index or count that an instruction can carry. -/
def maxIndex : Nat := 0xffff

/-! ## Segments of fixed size -/

/-- An index outside a segment of fixed size. -/
inductive CellError
  | temp (index : Int)
  | pointer (index : Int)
  deriving DecidableEq, Repr

def CellError.message : CellError → String
  | .temp index => s!"temp index out of range: {index} (must be 0-{tempSize - 1})"
  | .pointer index => s!"pointer index out of range: {index} (must be 0 or 1)"

/-- The symbol of a cell of the temp segment. -/
def tempCell (index : Int) : Except CellError String :=
  if 0 ≤ index ∧ index < tempSize then .ok ("R" ++ toString (tempBase + index.toNat))
  else .error (.temp index)

/-- The symbol of a cell of the pointer segment. -/
def pointerCell (index : Int) : Except CellError String :=
  match if 0 ≤ index then pointerBases[index.toNat]? else none with
  | some base => .ok base.symbol
  | none => .error (.pointer index)

theorem tempCell_eq_error_iff (index : Int) :
    tempCell index = .error (.temp index) ↔ index < 0 ∨ tempSize ≤ index := by
  unfold tempCell
  split <;> simp <;> omega

theorem pointerCell_eq_error_iff (index : Int) :
    pointerCell index = .error (.pointer index) ↔ index < 0 ∨ 2 ≤ index := by
  have zero : pointerCell 0 = .ok "THIS" := rfl
  have one : pointerCell 1 = .ok "THAT" := rfl
  by_cases h0 : index = 0
  · simp [h0, zero]
  by_cases h1 : index = 1
  · simp [h1, one]
  have : (if 0 ≤ index then pointerBases[index.toNat]? else none) = none := by
    split
    · exact List.getElem?_eq_none (by simp [pointerBases]; omega)
    · rfl
  simp only [pointerCell, this, true_iff]
  omega

end Memory

end HackVm
