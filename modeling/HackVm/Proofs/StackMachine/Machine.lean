import HackVm.Proofs.Command.Grammar
import HackVm.Proofs.StackMachine.Agreement

set_option autoImplicit false

/-! # The stack machine

The stack machine runs commands one by one. A state is the index of a command in the whole program
and a memory; scratch cells have no meaning to it. Of the translated program it knows two things:
the cells of static variables, and the addresses of commands in the program memory, which stand in
the frames as return addresses.

`Command.Fits` is what a command asks of the memory, such as words on the stack; where it does not
fit, and where a jump or a return leads nowhere, there is no next state. -/

namespace HackVm

namespace Ram

instance (m : Ram) (n : Nat) : Decidable (m.HasWords n) := inferInstanceAs (Decidable (_ ≤ _))

instance (m : Ram) (n : Nat) : Decidable (m.HasRoom n) := inferInstanceAs (Decidable (_ < _))

instance (x : Word16) : Decidable (Cell.IsFree x) := inferInstanceAs (Decidable (_ ≤ _))

instance (m : Ram) : Decidable m.HasFrame :=
  decidable_of_iff (m.HasWords 1 ∧ Cell.reserved + 5 ≤ (m Base.locals.cell).toNat ∧
      Cell.IsFree (m Base.arguments.cell))
    ⟨fun h => ⟨h.1, h.2.1, h.2.2⟩, fun h => ⟨h.words, h.frame, h.target⟩⟩

/-- The memory at the start: an empty stack, on which a function without arguments is called. -/
def start (m : Ram) (haltAddress : Nat) : Ram :=
  (m.set Cell.stackPointer (BitVec.ofNat 16 Memory.stackBase)).enter
    (BitVec.ofNat 16 haltAddress) 0

end Ram

/-- What a command asks of the memory: the words that it takes and room for those it pushes, all
above the reserved cells. A word is not pushed from a scratch cell. -/
def Command.Fits (m : Ram) : Command → Prop
  | .arithmetic op => m.HasWords op.arity
  | .push (.based base) n =>
    m.HasWords 0 ∧ ¬ Cell.IsScratch (m base.cell + BitVec.ofInt 16 n)
  | .push _ _ => m.HasWords 0
  | .pop _ _ | .ifGoto _ => m.HasWords 1
  | .label _ | .goto _ => True
  | .function _ n => m.HasWords 0 ∧ m.HasRoom n.toNat
  | .call _ _ _ => m.HasWords 0 ∧ m.HasRoom 5
  | .ret => m.HasFrame

instance (m : Ram) (c : Command) : Decidable (c.Fits m) := by
  cases c with
  | push segment n => cases segment <;> unfold Command.Fits <;> infer_instance
  | _ => unfold Command.Fits; infer_instance

theorem Command.Fits.hasWords_of_push {m : Ram} {segment : Segment} {n : Int}
    (h : (Command.push segment n).Fits m) : m.HasWords 0 := by
  cases segment with
  | based base => exact h.1
  | _ => exact h

namespace StackMachine

/-- Where the stack machine is. -/
inductive Control
  | command (index : Nat)
  /-- The function that the program started with has returned. -/
  | halted
  deriving DecidableEq, Repr

structure State where
  control : Control
  ram : Ram

structure Program where
  /-- The commands of all units, each with the name of its unit. -/
  commands : List (String × Command)
  /-- The cell of a static variable of a unit. -/
  statics : String → Int → Word16
  /-- Where the code of a command begins in the program memory. -/
  address : Nat → Nat
  /-- Where the program goes when the function it started with returns. -/
  haltAddress : Nat

namespace Program

variable (p : Program)

/-- The cell of an index of a segment; constants have no cells. -/
def cell? (unit : String) (m : Ram) : Segment → Int → Option Word16
  | .based base, n => some (m base.cell + BitVec.ofInt 16 n)
  | .constant, _ => none
  | .static, n => some (p.statics unit n)
  | .pointer, n =>
    if n = 0 then some Base.this.cell
    else if n = 1 then some Base.that.cell
    else none
  | .temp, n =>
    if 0 ≤ n ∧ n < Memory.tempSize then some (BitVec.ofNat 16 (Memory.tempBase + n.toNat))
    else none

/-- The word of an index of a segment. -/
def word? (unit : String) (m : Ram) : Segment → Int → Option Word16
  | .constant, n => some (BitVec.ofInt 16 n)
  | segment, n => (p.cell? unit m segment n).map m

/-- The index of the command that marks a label. -/
def label? (name : String) : Option Nat :=
  p.commands.findIdx? fun c => c.2 == .label name

/-- The index of the command that begins a function. -/
def function? (name : String) : Option Nat :=
  p.commands.findIdx? fun c => c.2.declares? == some name

/-- Where a return to an address leads: to the first command that begins there. The end of the
program counts as the beginning of one. -/
def control? (w : Word16) : Option Control :=
  if w.toNat = p.haltAddress then some .halted
  else ((List.range (p.commands.length + 1)).find? fun k => p.address k == w.toNat).map .command

/-- The state behind a command that fits. -/
def next? (k : Nat) (unit : String) (m : Ram) : Command → Option State
  | .arithmetic op => some ⟨.command (k + 1), m.compute op⟩
  | .push segment n => (p.word? unit m segment n).map fun w => ⟨.command (k + 1), m.push w⟩
  | .pop segment n => (p.cell? unit m segment n).map fun x => ⟨.command (k + 1), m.popTo x⟩
  | .label _ => some ⟨.command (k + 1), m⟩
  | .goto name => (p.label? name).map fun j => ⟨.command (j + 1), m⟩
  | .ifGoto name =>
    if m.pop.1 = 0 then some ⟨.command (k + 1), m.pop.2⟩
    else (p.label? name).map fun j => ⟨.command (j + 1), m.pop.2⟩
  | .function _ n => some ⟨.command (k + 1), m.pushZeros n.toNat⟩
  | .call callee n _ => (p.function? callee).map fun j =>
    ⟨.command j, m.enter (BitVec.ofNat 16 (p.address (k + 1))) (BitVec.ofInt 16 n)⟩
  | .ret => (p.control? m.returnAddress).map fun c => ⟨c, m.takeDown⟩

/-- Runs one command. A program that has halted stays there. -/
def step (s : State) : Option State :=
  match s.control with
  | .halted => some s
  | .command k =>
    match p.commands[k]? with
    | none => none
    | some (unit, c) => if c.Fits s.ram then p.next? k unit s.ram c else none

/-- Runs a number of commands. -/
def run : Nat → State → Option State
  | 0, s => some s
  | n + 1, s => (p.step s).bind (run n)

/-- The state at the start, in the function `entry`. -/
def start? (entry : String) (m : Ram) : Option State :=
  (p.function? entry).map fun j => ⟨.command j, m.start p.haltAddress⟩

/-- All labels that commands jump to are marked, and all functions that they call are begun. -/
structure Linked : Prop where
  label : ∀ unit name, (unit, Command.goto name) ∈ p.commands ∨
    (unit, Command.ifGoto name) ∈ p.commands → ∃ j, p.label? name = some j
  function : ∀ unit callee n back, (unit, Command.call callee n back) ∈ p.commands →
    ∃ j, p.function? callee = some j

/-- Where nothing follows: behind the last command, at a command that does not fit, and at a
return that leads nowhere. -/
def IsStuck (s : State) : Prop :=
  ∃ k, s.control = .command k ∧
    ∀ unit c, p.commands[k]? = some (unit, c) →
      c.Fits s.ram → c = .ret ∧ p.control? s.ram.returnAddress = none

/-- The address of the processor when the stack machine is at a place. -/
def addressOf : Control → Nat
  | .command k => p.address k
  | .halted => p.haltAddress

variable {p}

theorem step_of_fits {k : Nat} {m : Ram} {unit : String} {c : Command}
    (hc : p.commands[k]? = some (unit, c)) (fits : c.Fits m) :
    p.step ⟨.command k, m⟩ = p.next? k unit m c := by
  rw [step]
  dsimp only
  rw [hc]
  exact if_pos fits

/-- A step from a command runs the command. -/
theorem exists_of_step {k : Nat} {m : Ram} {s : State}
    (h : p.step ⟨.command k, m⟩ = some s) :
    ∃ unit c, p.commands[k]? = some (unit, c) ∧ c.Fits m ∧ p.next? k unit m c = some s := by
  unfold step at h
  dsimp only at h
  split at h
  · cases h
  · rename_i unit c hc
    split at h
    · rename_i hfits
      exact ⟨unit, c, hc, hfits, h⟩
    · cases h

/-- A return goes to the address that it finds. -/
theorem addressOf_of_control? {w : Word16} {c : Control} (h : p.control? w = some c) :
    p.addressOf c = w.toNat := by
  unfold control? at h
  split at h
  · rename_i hw
    cases h
    exact hw.symm
  · obtain ⟨k, hk, rfl⟩ := Option.map_eq_some_iff.mp h
    exact beq_iff_eq.mp (List.find?_some (p := fun k => p.address k == w.toNat) hk)

end Program

end StackMachine

end HackVm
