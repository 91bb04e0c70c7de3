import HackVm.Proofs.Machine.Cpu
import Mathlib.Algebra.Ring.Nat
import Mathlib.Data.List.Basic

set_option autoImplicit false

/-! # Code in the program memory

Assembled code is a slice of the program memory. `Placed` says that a code stands at an address:
each of its lines but the labels has its instruction there, one behind the other, and each label
stands for the address it marks. Placement splits along `++` (`placed_append`), so the code of a
program can be taken apart into the code of its parts.

`Leads` is the statement made about a piece of code: from one address and memory the processor
comes to another address and memory, whatever `A` and `D` hold before. Code without jumps leads to
its end, with the memory that `Cpu.follow` computes (`leads_of_straight`). -/

namespace HackVm

/-- What the symbols of a program stand for. -/
abbrev Symbols := String → Word16

namespace Line

/-- The instruction of a line; a label has none. -/
def instruction? (σ : Symbols) : Line → Option MachineInstruction
  | .symbol name => some (.load (σ name))
  | .number n => some (.load (BitVec.ofInt 16 n))
  | .compute destination computation jump => some (.compute destination computation jump)
  | .label _ => none

/-- The number of instructions of a line. -/
def size : Line → Nat
  | .label _ => 0
  | _ => 1

/-- Whether the processor goes on behind the line. -/
def IsStraight : Line → Prop
  | .compute _ _ jump => jump = .never
  | _ => True

@[simp] theorem isStraight_symbol (name : String) : (Line.symbol name).IsStraight := trivial

@[simp] theorem isStraight_number (n : Int) : (Line.number n).IsStraight := trivial

@[simp] theorem isStraight_label (name : String) : (Line.label name).IsStraight := trivial

@[simp] theorem isStraight_assign (t : Destination) (c : Computation) :
    (Line.assign t c).IsStraight := rfl

@[simp] theorem size_symbol (name : String) : (Line.symbol name).size = 1 := rfl

@[simp] theorem size_number (n : Int) : (Line.number n).size = 1 := rfl

@[simp] theorem size_label (name : String) : (Line.label name).size = 0 := rfl

@[simp] theorem size_assign (t : Destination) (c : Computation) : (Line.assign t c).size = 1 := rfl

@[simp] theorem size_jump (c : Computation) (j : Jump) : (Line.jump c j).size = 1 := rfl

end Line

/-- The number of instructions of a code. -/
def codeSize (code : List Line) : Nat := (code.map Line.size).sum

@[simp] theorem codeSize_nil : codeSize [] = 0 := rfl

@[simp] theorem codeSize_cons (line : Line) (code : List Line) :
    codeSize (line :: code) = line.size + codeSize code := by
  simp [codeSize]

@[simp] theorem codeSize_append (xs ys : List Line) :
    codeSize (xs ++ ys) = codeSize xs + codeSize ys := by
  simp [codeSize]

/-- A code stands at an address of the program memory. -/
def Placed (σ : Symbols) (rom : Rom) : Nat → List Line → Prop
  | _, [] => True
  | i, line :: code =>
    (∀ m, line.instruction? σ = some m → rom[i]? = some m) ∧
      (∀ name, line = .label name → (σ name).toNat = i) ∧ Placed σ rom (i + line.size) code

theorem placed_append {σ : Symbols} {rom : Rom} {i : Nat} {xs ys : List Line} :
    Placed σ rom i (xs ++ ys) ↔ Placed σ rom i xs ∧ Placed σ rom (i + codeSize xs) ys := by
  induction xs generalizing i with
  | nil => simp [Placed]
  | cons line xs ih =>
    rw [List.cons_append, Placed, Placed, ih, codeSize_cons, Nat.add_assoc]
    simp only [and_assoc]

/-- A label stands for the address at which it is placed. -/
theorem Placed.label {σ : Symbols} {rom : Rom} {i : Nat} {name : String} {code : List Line}
    (h : Placed σ rom i (.label name :: code)) : (σ name).toNat = i :=
  h.2.1 name rfl

theorem Placed.tail {σ : Symbols} {rom : Rom} {i : Nat} {line : Line} {code : List Line}
    (h : Placed σ rom i (line :: code)) : Placed σ rom (i + line.size) code :=
  h.2.2

/-! ## Following code without jumps -/

/-- The state behind a line. -/
def Cpu.pass (σ : Symbols) (s : Cpu) (line : Line) : Cpu :=
  match line.instruction? σ with
  | some i => s.execute i
  | none => s

/-- The state behind a code without jumps. -/
def Cpu.follow (σ : Symbols) (s : Cpu) (code : List Line) : Cpu :=
  code.foldl (Cpu.pass σ) s

namespace Cpu

variable (σ : Symbols) (s : Cpu)

@[simp] theorem follow_nil : s.follow σ [] = s := rfl

@[simp] theorem follow_cons (line : Line) (code : List Line) :
    s.follow σ (line :: code) = (s.pass σ line).follow σ code := rfl

@[simp] theorem follow_append (xs ys : List Line) :
    s.follow σ (xs ++ ys) = (s.follow σ xs).follow σ ys :=
  List.foldl_append

@[simp] theorem pass_symbol (name : String) :
    s.pass σ (.symbol name) = { s with a := σ name, pc := s.pc + 1 } := rfl

@[simp] theorem pass_number (n : Int) :
    s.pass σ (.number n) = { s with a := BitVec.ofInt 16 n, pc := s.pc + 1 } := rfl

@[simp] theorem pass_label (name : String) : s.pass σ (.label name) = s := rfl

@[simp] theorem pass_toA (c : Computation) :
    s.pass σ (.assign .toA c) = { s with a := c.eval s, pc := s.pc + 1 } := rfl

@[simp] theorem pass_toD (c : Computation) :
    s.pass σ (.assign .toD c) = { s with d := c.eval s, pc := s.pc + 1 } := rfl

@[simp] theorem pass_toM (c : Computation) :
    s.pass σ (.assign .toM c) = { s with ram := s.ram.set s.a (c.eval s), pc := s.pc + 1 } := rfl

@[simp] theorem pass_toAM (c : Computation) :
    s.pass σ (.assign .toAM c) =
      { s with a := c.eval s, ram := s.ram.set s.a (c.eval s), pc := s.pc + 1 } := rfl

end Cpu

theorem Cpu.pc_pass (σ : Symbols) (s : Cpu) {line : Line} (h : line.IsStraight) :
    (s.pass σ line).pc = s.pc + line.size := by
  cases line with
  | compute t c j =>
    obtain rfl : j = .never := h
    rfl
  | _ => rfl

theorem Cpu.reaches_pass {σ : Symbols} {rom : Rom} {s : Cpu} {line : Line} {code : List Line}
    (h : Placed σ rom s.pc (line :: code)) : Reaches rom s (s.pass σ line) := by
  unfold Cpu.pass
  cases hi : line.instruction? σ with
  | none => exact .refl s
  | some i => exact .single (h.1 i hi)

theorem Cpu.reaches_follow {σ : Symbols} {rom : Rom} {s : Cpu} {code : List Line}
    (straight : ∀ line ∈ code, line.IsStraight) (h : Placed σ rom s.pc code) :
    Reaches rom s (s.follow σ code) ∧ (s.follow σ code).pc = s.pc + codeSize code := by
  induction code generalizing s with
  | nil => exact ⟨.refl s, rfl⟩
  | cons line code ih =>
    have hpc : (s.pass σ line).pc = s.pc + line.size := s.pc_pass σ (straight _ List.mem_cons_self)
    have hrest : Placed σ rom (s.pass σ line).pc code := by
      rw [hpc]
      exact h.tail
    obtain ⟨hreach, hend⟩ := ih (fun l hl => straight l (List.mem_cons_of_mem _ hl)) hrest
    refine ⟨(Cpu.reaches_pass h).trans hreach, ?_⟩
    rw [codeSize_cons, ← Nat.add_assoc, ← hpc]
    exact hend

theorem Cpu.reaches_last {σ : Symbols} {rom : Rom} {s : Cpu} {code : List Line} {last : Line}
    (straight : ∀ line ∈ code, line.IsStraight) (h : Placed σ rom s.pc (code ++ [last])) :
    (s.follow σ code).pc = s.pc + codeSize code ∧
      Reaches rom s ((s.follow σ code).pass σ last) := by
  rw [placed_append] at h
  obtain ⟨hreach, hend⟩ := Cpu.reaches_follow straight h.1
  exact ⟨hend, hreach.trans (Cpu.reaches_pass (hend ▸ h.2))⟩

/-- A jump behind code without jumps is taken. -/
theorem Cpu.reaches_jump {σ : Symbols} {rom : Rom} {s : Cpu} {code : List Line} {c : Computation}
    {jump : Jump} (straight : ∀ line ∈ code, line.IsStraight)
    (h : Placed σ rom s.pc (code ++ [.jump c jump]))
    (taken : jump.taken (c.eval (s.follow σ code)) = true) :
    Reaches rom s { s.follow σ code with pc := (s.follow σ code).a.toNat } := by
  obtain ⟨-, hreach⟩ := Cpu.reaches_last straight h
  have hpass : (s.follow σ code).pass σ (.jump c jump) =
      { s.follow σ code with
        pc := if jump.taken (c.eval (s.follow σ code)) then (s.follow σ code).a.toNat
          else (s.follow σ code).pc + 1 } := rfl
  rwa [hpass, if_pos taken] at hreach

/-- A jump behind code without jumps is not taken. -/
theorem Cpu.reaches_fall {σ : Symbols} {rom : Rom} {s : Cpu} {code : List Line} {c : Computation}
    {jump : Jump} (straight : ∀ line ∈ code, line.IsStraight)
    (h : Placed σ rom s.pc (code ++ [.jump c jump]))
    (taken : jump.taken (c.eval (s.follow σ code)) = false) :
    Reaches rom s { s.follow σ code with pc := s.pc + codeSize code + 1 } := by
  obtain ⟨hend, hreach⟩ := Cpu.reaches_last straight h
  have hpass : (s.follow σ code).pass σ (.jump c jump) =
      { s.follow σ code with
        pc := if jump.taken (c.eval (s.follow σ code)) then (s.follow σ code).a.toNat
          else (s.follow σ code).pc + 1 } := rfl
  rwa [hpass, taken, if_neg Bool.false_ne_true, hend] at hreach

/-! ## From address to address -/

/-- From address `i` and memory `m` the processor comes to address `j` and memory `m'`, whatever
the registers hold. -/
def Leads (rom : Rom) (i : Nat) (m : Ram) (j : Nat) (m' : Ram) : Prop :=
  ∀ s : Cpu, s.pc = i → s.ram = m → ∃ t : Cpu, Cpu.Reaches rom s t ∧ t.pc = j ∧ t.ram = m'

namespace Leads

variable {rom : Rom} {i j k : Nat} {m m' m'' : Ram}

theorem refl (i : Nat) (m : Ram) : Leads rom i m i m := fun s hi hm => ⟨s, .refl s, hi, hm⟩

theorem trans (h : Leads rom i m j m') (h' : Leads rom j m' k m'') : Leads rom i m k m'' := by
  intro s hi hm
  obtain ⟨t, hst, htj, htm⟩ := h s hi hm
  obtain ⟨u, htu, huk, hum⟩ := h' t htj htm
  exact ⟨u, hst.trans htu, huk, hum⟩

end Leads

/-- Code without jumps leads to its end. -/
theorem leads_of_straight {σ : Symbols} {rom : Rom} {i : Nat} {code : List Line} {m m' : Ram}
    (straight : ∀ line ∈ code, line.IsStraight) (h : Placed σ rom i code)
    (hm : ∀ a d, (Cpu.follow σ ⟨a, d, i, m⟩ code).ram = m') :
    Leads rom i m (i + codeSize code) m' := by
  rintro ⟨a, d, pc, ram⟩ hi hram
  obtain rfl : pc = i := hi
  obtain rfl : ram = m := hram
  obtain ⟨hreach, hend⟩ := Cpu.reaches_follow (s := ⟨a, d, pc, ram⟩) straight h
  exact ⟨_, hreach, hend, hm a d⟩

/-- Code without jumps leads to where a jump behind it goes. -/
theorem leads_of_jump {σ : Symbols} {rom : Rom} {i : Nat} {code : List Line} {c : Computation}
    {jump : Jump} {m m' : Ram} {j : Nat}
    (straight : ∀ line ∈ code, line.IsStraight) (h : Placed σ rom i (code ++ [.jump c jump]))
    (hm : ∀ a d, let s := Cpu.follow σ ⟨a, d, i, m⟩ code
      jump.taken (c.eval s) = true ∧ s.a.toNat = j ∧ s.ram = m') :
    Leads rom i m j m' := by
  rintro ⟨a, d, pc, ram⟩ hi hram
  obtain rfl : pc = i := hi
  obtain rfl : ram = m := hram
  obtain ⟨taken, hj, hm'⟩ := hm a d
  exact ⟨_, Cpu.reaches_jump (s := ⟨a, d, pc, ram⟩) straight h taken, hj, hm'⟩

/-- Code without jumps leads on behind a jump that is not taken. -/
theorem leads_of_fall {σ : Symbols} {rom : Rom} {i : Nat} {code : List Line} {c : Computation}
    {jump : Jump} {m m' : Ram}
    (straight : ∀ line ∈ code, line.IsStraight) (h : Placed σ rom i (code ++ [.jump c jump]))
    (hm : ∀ a d, let s := Cpu.follow σ ⟨a, d, i, m⟩ code
      jump.taken (c.eval s) = false ∧ s.ram = m') :
    Leads rom i m (i + codeSize code + 1) m' := by
  rintro ⟨a, d, pc, ram⟩ hi hram
  obtain rfl : pc = i := hi
  obtain rfl : ram = m := hram
  obtain ⟨taken, hm'⟩ := hm a d
  exact ⟨_, Cpu.reaches_fall (s := ⟨a, d, pc, ram⟩) straight h taken, rfl, hm'⟩

end HackVm
