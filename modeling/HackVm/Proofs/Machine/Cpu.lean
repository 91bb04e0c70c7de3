import HackVm.Machine.Assembly
import Mathlib.Logic.Function.Basic

set_option autoImplicit false

/-! # The processor

The Hack processor works on words of 16 bits. It has the registers `A` and `D`, a program counter
and a memory with one word for each address; `M` is the memory cell that `A` points at. An
instruction either loads a word into `A`, or computes a word, stores it and jumps by its sign.

`run` takes a number of steps, and `Reaches` any number; runs compose (`Reaches.trans`). -/

namespace HackVm

abbrev Word16 := BitVec 16

/-- The contents of the memory. -/
abbrev Ram := Word16 → Word16

namespace Ram

/-- Writes a word into a cell. -/
def set (m : Ram) (x w : Word16) : Ram := Function.update m x w

variable (m : Ram) (v w : Word16) {x y : Word16}

@[simp] theorem set_self (x : Word16) : m.set x w x = w := Function.update_self ..

theorem set_of_ne (h : y ≠ x) : m.set x w y = m y := Function.update_of_ne h ..

@[simp] theorem set_set (x : Word16) : (m.set x v).set x w = m.set x w := Function.update_idem ..

theorem set_comm (h : x ≠ y) : (m.set x v).set y w = (m.set y w).set x v :=
  Function.update_comm h ..

/-- Writing what is there already changes nothing. -/
theorem set_eq_self (h : m x = w) : m.set x w = m := by
  rw [← h]
  exact Function.update_eq_self ..

end Ram

/-- An instruction in the program memory, with all symbols replaced by what they stand for. -/
inductive MachineInstruction
  | load (value : Word16)
  | compute (destination : Destination) (computation : Computation) (jump : Jump)
  deriving DecidableEq, Repr

/-- The program memory. -/
abbrev Rom := List MachineInstruction

@[ext] structure Cpu where
  a : Word16
  d : Word16
  /-- The address of the next instruction. -/
  pc : Nat
  ram : Ram

/-! ## What an instruction does -/

/-- The word in a register. -/
def Register.read (s : Cpu) : Register → Word16
  | .a => s.a
  | .d => s.d
  | .m => s.ram s.a

def Source.read (s : Cpu) : Source → Word16
  | .a => s.a
  | .m => s.ram s.a

def BinaryOp.eval : BinaryOp → Word16 → Word16 → Word16
  | .add, x, y => x + y
  | .sub, x, y => x - y
  | .and, x, y => x &&& y
  | .or, x, y => x ||| y

def Computation.eval (s : Cpu) : Computation → Word16
  | .zero => 0
  | .one => 1
  | .minusOne => -1
  | .copy x => x.read s
  | .not x => ~~~ x.read s
  | .neg x => - x.read s
  | .succ x => x.read s + 1
  | .pred x => x.read s - 1
  | .dWith op y => op.eval s.d (y.read s)
  | .withD x op => op.eval (x.read s) s.d

section

variable (s : Cpu)

@[simp] theorem Register.read_a : Register.a.read s = s.a := rfl
@[simp] theorem Register.read_d : Register.d.read s = s.d := rfl
@[simp] theorem Register.read_m : Register.m.read s = s.ram s.a := rfl
@[simp] theorem Source.read_a : Source.a.read s = s.a := rfl
@[simp] theorem Source.read_m : Source.m.read s = s.ram s.a := rfl

@[simp] theorem Computation.eval_zero : Computation.zero.eval s = 0 := rfl
@[simp] theorem Computation.eval_minusOne : Computation.minusOne.eval s = -1 := rfl
@[simp] theorem Computation.eval_copy (x : Register) :
    (Computation.copy x).eval s = x.read s := rfl
@[simp] theorem Computation.eval_succ (x : Register) :
    (Computation.succ x).eval s = x.read s + 1 := rfl
@[simp] theorem Computation.eval_pred (x : Register) :
    (Computation.pred x).eval s = x.read s - 1 := rfl
@[simp] theorem Computation.eval_dWith (op : BinaryOp) (y : Source) :
    (Computation.dWith op y).eval s = op.eval s.d (y.read s) := rfl
@[simp] theorem Computation.eval_withD (x : Source) (op : BinaryOp) :
    (Computation.withD x op).eval s = op.eval (x.read s) s.d := rfl

end

/-- Whether a jump is taken on a word, which counts as a signed number. -/
def Jump.taken : Jump → Word16 → Bool
  | .never, _ => false
  | .gt, w => decide (0 < w.toInt)
  | .eq, w => decide (w = 0)
  | .ge, w => decide (0 ≤ w.toInt)
  | .lt, w => decide (w.toInt < 0)
  | .ne, w => decide (w ≠ 0)
  | .le, w => decide (w.toInt ≤ 0)
  | .always, _ => true

@[simp] theorem Jump.taken_eq_iff {w : Word16} : Jump.eq.taken w = true ↔ w = 0 :=
  decide_eq_true_iff

@[simp] theorem Jump.taken_ne_iff {w : Word16} : Jump.ne.taken w = true ↔ w ≠ 0 :=
  decide_eq_true_iff

namespace Cpu

/-- Stores a word in all registers of a destination. The cell written is the one that `A` points
at before the instruction. -/
def store (s : Cpu) (t : Destination) (w : Word16) : Cpu :=
  { s with
    a := if t.a then w else s.a
    d := if t.d then w else s.d
    ram := if t.m then s.ram.set s.a w else s.ram }

/-- Carries out an instruction. A jump goes where `A` points before the instruction. -/
def execute (s : Cpu) : MachineInstruction → Cpu
  | .load value => { s with a := value, pc := s.pc + 1 }
  | .compute destination computation jump =>
    let w := computation.eval s
    { s.store destination w with pc := if jump.taken w then s.a.toNat else s.pc + 1 }

/-- Carries out the next instruction, if there is one. -/
def step (rom : Rom) (s : Cpu) : Option Cpu :=
  rom[s.pc]?.map s.execute

/-- Takes a number of steps. -/
def run (rom : Rom) : Nat → Cpu → Option Cpu
  | 0, s => some s
  | n + 1, s => (s.step rom).bind (run rom n)

theorem run_add (rom : Rom) (m n : Nat) (s : Cpu) :
    s.run rom (m + n) = (s.run rom m).bind (run rom n) := by
  induction m generalizing s with
  | zero => rw [Nat.zero_add]; rfl
  | succ m ih =>
    rw [Nat.succ_add, run, run, Option.bind_assoc]
    congr 1
    funext s'
    exact ih s'

/-! ## Reaching a state -/

/-- The processor comes from one state to another in some number of steps. -/
def Reaches (rom : Rom) (s t : Cpu) : Prop :=
  ∃ n, s.run rom n = some t

namespace Reaches

variable {rom : Rom} {s t u : Cpu}

theorem refl (s : Cpu) : Reaches rom s s := ⟨0, rfl⟩

theorem trans (hst : Reaches rom s t) (htu : Reaches rom t u) : Reaches rom s u := by
  obtain ⟨m, hm⟩ := hst
  obtain ⟨n, hn⟩ := htu
  refine ⟨m + n, ?_⟩
  rw [run_add, hm]
  exact hn

theorem single {i : MachineInstruction} (h : rom[s.pc]? = some i) :
    Reaches rom s (s.execute i) := by
  refine ⟨1, ?_⟩
  rw [run, step, h]
  rfl

end Reaches

end Cpu

end HackVm
