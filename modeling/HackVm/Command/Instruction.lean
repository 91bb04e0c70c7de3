import HackVm.Command.Basic

set_option autoImplicit false

/-! # Instructions as written

Labels and call sites belong to the function that was declared last. Its scope gives a label its
complete name and numbers the call sites from zero, so that each has a return address of its
own.

In a program text an instruction names a label or a callee only. `Instruction.resolve` completes
it to a command in the scope it stands in, and gives the scope of the next instruction: a
declaration opens a new scope, a call counts its site, and everything else leaves the scope
alone. Labels, jumps, calls and returns must stand in a function. -/

namespace HackVm

/-! ## The scope of a function -/

/-- A function that is being read, and the number of its call sites so far. -/
structure Scope where
  function : String
  calls : Nat
  deriving DecidableEq, Repr

namespace Scope

/-- The scope at the declaration of a function. -/
def enter (function : String) : Scope := ⟨function, 0⟩

/-- The complete name of a label. -/
def qualify (s : Scope) (label : String) : String :=
  s.function ++ "$" ++ label

/-- The address that the next call site returns to. -/
def returnAddress (s : Scope) : String :=
  s.function ++ "$ret." ++ toString s.calls

/-- The scope behind a call site. -/
def called (s : Scope) : Scope :=
  { s with calls := s.calls + 1 }

def describe (s : Scope) : String :=
  "FunctionContext(" ++ s.function ++ ", " ++ toString s.calls ++ " calls)"

end Scope

/-! ## Instructions -/

inductive Instruction
  | arithmetic (op : Operation)
  | push (segment : Segment) (index : Nat)
  | pop (segment : Segment) (index : Nat)
  | label (name : String)
  | goto (name : String)
  | ifGoto (name : String)
  | function (name : String) (locals : Nat)
  | call (callee : String) (arguments : Nat)
  | ret
  deriving DecidableEq, Repr

/-- What stands outside of any function although it may not. -/
inductive ScopeError
  | label
  | call
  | ret
  deriving DecidableEq, Repr

def ScopeError.subject : ScopeError → String
  | .label => "label"
  | .call => "call"
  | .ret => "return"

namespace Instruction

/-- Completes an instruction to a command, and gives the scope behind it. -/
def resolve (scope : Option Scope) : Instruction → Except ScopeError (Command × Option Scope)
  | .arithmetic op => .ok (.arithmetic op, scope)
  | .push segment index => .ok (.push segment index, scope)
  | .pop segment index => .ok (.pop segment index, scope)
  | .label name => within .label fun s => (.label (s.qualify name), s)
  | .goto name => within .label fun s => (.goto (s.qualify name), s)
  | .ifGoto name => within .label fun s => (.ifGoto (s.qualify name), s)
  | .function name locals => .ok (.function name locals, some (.enter name))
  | .call callee arguments =>
    within .call fun s => (.call callee arguments s.returnAddress, s.called)
  | .ret => within .ret fun s => (.ret, s)
where
  /-- Resolves what needs a function around it. -/
  within (subject : ScopeError) (f : Scope → Command × Scope) :
      Except ScopeError (Command × Option Scope) :=
    match scope with
    | none => .error subject
    | some s => .ok ((f s).1, some (f s).2)

/-- The function that an instruction declares. -/
def declares? : Instruction → Option String
  | .function name _ => some name
  | _ => none

/-- Inside a function every instruction can be completed. -/
theorem resolve_isOk (s : Scope) (i : Instruction) : ∃ result, i.resolve (some s) = .ok result := by
  cases i <;> exact ⟨_, rfl⟩

/-- A scope error means that there is no scope. -/
theorem scope_eq_none_of_resolve {i : Instruction} {scope : Option Scope}
    {cause : ScopeError} (h : i.resolve scope = .error cause) : scope = none := by
  cases scope with
  | none => rfl
  | some s =>
    obtain ⟨result, hresult⟩ := i.resolve_isOk s
    cases h.symm.trans hresult

end Instruction

end HackVm
