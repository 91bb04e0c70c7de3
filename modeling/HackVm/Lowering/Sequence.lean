import HackVm.Command.Basic
import HackVm.Machine.Assembly

set_option autoImplicit false

/-! # Code sequences

Each step of the stack machine is a fixed sequence of Hack instructions with a few places for
symbols and numbers. `SP` points at the first free cell above the stack. A sequence may use `A`,
`D` and the scratch cells, and keeps nothing in them for the next one. -/

namespace HackVm.Sequence

open Memory

/-- Loads the stack pointer's address. -/
def atStackPointer : Line := .symbol stackPointer

/-- Pushes `D`. -/
def pushD : List Line :=
  [atStackPointer, .assign .toA (.copy .m), .assign .toM (.copy .d),
    atStackPointer, .assign .toM (.succ .m)]

/-- Pops into `D`, and leaves `A` at the cell that was the top. -/
def popD : List Line :=
  [atStackPointer, .assign .toAM (.pred .m), .assign .toD (.copy .m)]

/-! ## Computing -/

/-- Changes the top word in place. -/
def unary (computation : Computation) : List Line :=
  [atStackPointer, .assign .toA (.pred .m), .assign .toM computation]

/-- Replaces the two top words by one: the lower one is in `M`, the upper one in `D`. -/
def binary (op : BinaryOp) : List Line :=
  popD ++ [.assign .toA (.pred .a), .assign .toM (.withD .m op)]

/-- Replaces the two top words by true, all bits set, if their difference meets the condition, and
else by false, no bit set. -/
def comparison (condition : Jump) (label : String) : List Line :=
  popD ++
    [.assign .toA (.pred .a), .assign .toD (.withD .m .sub), .assign .toM .minusOne,
      .symbol label, .jump (.copy .d) condition,
      atStackPointer, .assign .toA (.pred .m), .assign .toM .zero,
      .label label]

/-! ## Pushing and popping -/

def pushConstant (value : Int) : List Line :=
  [.number value, .assign .toD (.copy .a)] ++ pushD

/-- Pushes the cell that a symbol names. -/
def pushCell (symbol : String) : List Line :=
  [.symbol symbol, .assign .toD (.copy .m)] ++ pushD

/-- Pushes a cell of a segment that is found through its base. -/
def pushBased (base : Base) (index : Int) : List Line :=
  [.symbol base.symbol, .assign .toD (.copy .m), .number index, .assign .toA (.dWith .add .a),
    .assign .toD (.copy .m)] ++ pushD

/-- Pops into the cell that a symbol names. -/
def popCell (symbol : String) : List Line :=
  popD ++ [.symbol symbol, .assign .toM (.copy .d)]

/-- Pops into a cell of a segment that is found through its base. The target is computed first,
because popping needs `D`. -/
def popBased (base : Base) (index : Int) : List Line :=
  [.symbol base.symbol, .assign .toD (.copy .m), .number index, .assign .toD (.dWith .add .a),
    .symbol scratchAddress, .assign .toM (.copy .d)] ++ popD ++
    [.symbol scratchAddress, .assign .toA (.copy .m), .assign .toM (.copy .d)]

/-! ## Program flow -/

/-- Jumps to a symbol. -/
def goto (name : String) : List Line :=
  [.symbol name, .jump .zero .always]

/-- Pops a word and jumps if it is not zero. -/
def ifGoto (name : String) : List Line :=
  popD ++ [.symbol name, .jump (.copy .d) .ne]

/-! ## Functions -/

/-- Where the loop that clears the locals of a function begins. -/
def localsLoop (function : String) : String := function ++ "$locals.loop"

/-- Where the loop that clears the locals of a function ends. -/
def localsEnd (function : String) : String := function ++ "$locals.end"

/-- The entry of a function: `D` counts down the locals while zeros are pushed. -/
def function (name : String) (locals : Int) : List Line :=
  [.label name, .number locals, .assign .toD (.copy .a),
    .label (localsLoop name), .symbol (localsEnd name), .jump (.copy .d) .eq,
    .assign .toD (.pred .d),
    atStackPointer, .assign .toA (.copy .m), .assign .toM .zero,
    atStackPointer, .assign .toM (.succ .m),
    .symbol (localsLoop name), .jump .zero .always,
    .label (localsEnd name)]

/-- Pushes the return address and the base cells, sets the bases of the called function, and
jumps to it. -/
def call (callee : String) (arguments : Int) (returnAddress : String) : List Line :=
  [.symbol returnAddress, .assign .toD (.copy .a)] ++ pushD ++
    Base.all.flatMap (fun base => pushCell base.symbol) ++
    [atStackPointer, .assign .toD (.copy .m), .number frameSize, .assign .toD (.dWith .sub .a),
      .number arguments, .assign .toD (.dWith .sub .a),
      .symbol Base.arguments.symbol, .assign .toM (.copy .d)] ++
    [atStackPointer, .assign .toD (.copy .m), .symbol Base.locals.symbol,
      .assign .toM (.copy .d)] ++
    [.symbol callee, .jump .zero .always, .label returnAddress]

/-- Takes the cell below `scratchFrame` into a base cell, and moves `scratchFrame` down. -/
def restore (base : Base) : List Line :=
  [.symbol scratchFrame, .assign .toAM (.pred .m), .assign .toD (.copy .m),
    .symbol base.symbol, .assign .toM (.copy .d)]

/-- Goes back to the caller. The return address is read before the result is stored, since
without arguments both have the same cell; the bases come back in the reverse of the order in
which a call saved them. -/
def ret : List Line :=
  [.symbol Base.locals.symbol, .assign .toD (.copy .m), .symbol scratchFrame,
    .assign .toM (.copy .d),
    .number frameSize, .assign .toA (.dWith .sub .a), .assign .toD (.copy .m),
    .symbol scratchReturn, .assign .toM (.copy .d)] ++ popD ++
    [.symbol Base.arguments.symbol, .assign .toA (.copy .m), .assign .toM (.copy .d),
      .assign .toD (.copy .a), atStackPointer, .assign .toM (.succ .d)] ++
    Base.all.reverse.flatMap restore ++
    [.symbol scratchReturn, .assign .toA (.copy .m), .jump .zero .always]

end HackVm.Sequence
