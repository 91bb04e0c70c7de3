import HackVm.Text.Quoted

set_option autoImplicit false

/-! # The text in a file

A text file is read byte by byte as UTF-8. A lead byte announces how many continuation bytes
follow and between which bounds the first of them lies, so that overlong forms, surrogates and
code points beyond U+10FFFF are refused at the earliest byte that shows them. The first fault ends
the decoding: it covers the bytes of the sequence that were sound before it showed.

A line of a file may end in a carriage return, in a line feed, or in the first followed by the
second. Inside the program each of the three is one line feed. -/

namespace HackVm.Text

/-! ## Decoding -/

namespace Utf8

/-- Why a sequence of bytes stands for no character. -/
inductive Reason
  | invalidStart
  | invalidContinuation
  | unexpectedEnd
  deriving DecidableEq, Repr

def Reason.message : Reason → String
  | .invalidStart => "invalid start byte"
  | .invalidContinuation => "invalid continuation byte"
  | .unexpectedEnd => "unexpected end of data"

/-- A fault: its reason, the offset and value of the first byte it covers, and the number of
bytes it covers. -/
structure Fault where
  reason : Reason
  offset : Nat
  lead : UInt8
  size : Nat
  deriving DecidableEq, Repr

/-- A fault is described by the byte or the bytes it covers and by its reason. -/
def Fault.message (f : Fault) : String :=
  let place :=
    if f.size = 1 then
      "byte 0x" ++ String.ofList (hexDigits 2 f.lead.toNat) ++ " in position " ++ toString f.offset
    else
      "bytes in position " ++ toString f.offset ++ "-" ++ toString (f.offset + f.size - 1)
  "'utf-8' codec can't decode " ++ place ++ ": " ++ f.reason.message

/-- A sequence that lacks bytes: where and how it began, the bits read so far, the number of
bytes read and still to come, and the bounds of the next one. -/
structure Pending where
  offset : Nat
  lead : UInt8
  bits : Nat
  size : Nat
  missing : Nat
  low : UInt8
  high : UInt8

/-- The fault of a sequence that does not go on as announced. -/
def Pending.fault (p : Pending) (reason : Reason) : Fault :=
  ⟨reason, p.offset, p.lead, p.size⟩

/-- What the lead byte `b` at `offset` announces; `none` if no character starts with it. -/
def announce (offset : Nat) (b : UInt8) : Option Pending :=
  let begin (bits missing : Nat) (low high : UInt8) : Option Pending :=
    some ⟨offset, b, bits, 1, missing, low, high⟩
  if b < 0xc2 then none
  else if b < 0xe0 then begin (b.toNat - 0xc0) 1 0x80 0xbf
  else if b < 0xf0 then
    begin (b.toNat - 0xe0) 2 (if b = 0xe0 then 0xa0 else 0x80) (if b = 0xed then 0x9f else 0xbf)
  else if b < 0xf5 then
    begin (b.toNat - 0xf0) 3 (if b = 0xf0 then 0x90 else 0x80) (if b = 0xf4 then 0x8f else 0xbf)
  else none

/-- Decodes the bytes from `offset` on, the last of which may still belong to a pending
sequence. -/
def decodeFrom (offset : Nat) : Option Pending → List UInt8 → Except Fault (List Char)
  | none, [] => .ok []
  | some p, [] => .error (p.fault .unexpectedEnd)
  | none, b :: rest =>
    if b < 0x80 then return Char.ofNat b.toNat :: (← decodeFrom (offset + 1) none rest)
    else match announce offset b with
      | none => .error ⟨.invalidStart, offset, b, 1⟩
      | some p => decodeFrom (offset + 1) (some p) rest
  | some p, b :: rest =>
    if b < p.low ∨ p.high < b then .error (p.fault .invalidContinuation)
    else
      let bits := p.bits * 64 + (b.toNat - 0x80)
      if p.missing ≤ 1 then return Char.ofNat bits :: (← decodeFrom (offset + 1) none rest)
      else
        let more : Pending :=
          { p with bits, size := p.size + 1, missing := p.missing - 1, low := 0x80, high := 0xbf }
        decodeFrom (offset + 1) (some more) rest

/-- The characters that the bytes stand for, or the first fault. -/
def decode (bytes : List UInt8) : Except Fault (List Char) :=
  decodeFrom 0 none bytes

end Utf8

/-! ## Line ends -/

/-- Turns every line end into one line feed. -/
def unifyLineEnds : List Char → List Char
  | [] => []
  | '\r' :: '\n' :: rest => '\n' :: unifyLineEnds rest
  | c :: rest => (if c = '\r' then '\n' else c) :: unifyLineEnds rest

end HackVm.Text
