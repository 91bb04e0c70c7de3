import HackVm.Machine.Memory
import HackVm.Token.Cursor

set_option autoImplicit false

/-! # What can be wrong in a program text

A complaint says what is wrong, and a located error says in which unit and at which token. A
numeral with too many digits is refused before its value is known; that error alone carries no
place. -/

namespace HackVm

open Text

/-- The longest numeral whose value is taken. -/
def maxDigits : Nat := 4300

/-- What is wrong with a token. -/
inductive Complaint
  /-- No command begins like this. -/
  | invalidCommand (token : Token)
  | invalidSegment (name : String)
  /-- Something else stands where `what` should. -/
  | expected (what got : String)
  /-- The text ends where `what` should stand. -/
  | ended (what : String)
  | outOfRange (what : String) (value : Nat)
  | outsideFunction (what : String)
  /-- Any other remark. -/
  | remark (message : String)
  deriving DecidableEq, Repr

def Complaint.message : Complaint → String
  | .invalidCommand token =>
    "invalid command: " ++ if token.kind = .identifier then token.text else quoted token.text
  | .invalidSegment name => "invalid memory segment: " ++ name
  | .expected what got => what ++ " expected, got " ++ quoted got
  | .ended what => "unexpected end of input: " ++ what ++ " expected"
  | .outOfRange what value =>
    what ++ " out of range: " ++ toString value ++ " (max " ++ toString Memory.maxIndex ++ ")"
  | .outsideFunction what => what ++ " outside function"
  | .remark message => message

inductive ReadError
  /-- A complaint about a unit, at a place in it once a token was read. -/
  | located (unit : String) (position : Option Position) (complaint : Complaint)
  | tooManyDigits (count : Nat)
  deriving DecidableEq, Repr

def ReadError.message : ReadError → String
  | .located unit (some position) complaint =>
    unit ++ ":" ++ position.text ++ ": " ++ complaint.message
  | .located unit none complaint => unit ++ ": " ++ complaint.message
  | .tooManyDigits count =>
    s!"Exceeds the limit ({maxDigits} digits) for integer string conversion: value has {count} "
      ++ "digits; use sys.set_int_max_str_digits() to increase the limit"

end HackVm
