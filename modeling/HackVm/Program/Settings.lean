import HackVm.Text.Quoted

set_option autoImplicit false

/-! # Settings

What can be chosen about the program that is made. Some choices are names, and a name can be left
blank although it was announced. A blank setting names no function, no scope and no file; where
it is shown, an empty row, `[]`, takes the place of the name. -/

namespace HackVm

open Text

/-- The name that was chosen for something. -/
inductive Setting
  | given (name : String)
  | blank
  deriving DecidableEq, Repr

namespace Setting

/-- The name, if there is one. -/
def name? : Setting → Option String
  | .given name => some name
  | .blank => none

def text : Setting → String
  | .given name => name
  | .blank => "[]"

/-- The setting in a message, where a name stands in quotes. -/
def described : Setting → String
  | .given name => quoted name
  | .blank => "[]"

end Setting

structure Settings where
  /-- Whether all notices are shown. -/
  verbose : Bool := false
  /-- The function that a program starts with. -/
  entry : Setting := .given "Sys.init"
  /-- Whether a program calls its entry function; if open, the programs in directories do. -/
  bootstrap : Option Bool := none
  /-- Whether each block is preceded by the command it comes from. -/
  comments : Bool := true
  /-- The scope of static variables. -/
  staticScope : Setting := .given "unit"
  deriving DecidableEq, Repr

end HackVm
