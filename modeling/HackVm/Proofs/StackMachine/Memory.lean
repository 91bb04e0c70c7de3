import HackVm.Command.Basic
import HackVm.Proofs.Machine.Cpu
import Mathlib.Algebra.Ring.Nat

set_option autoImplicit false

/-! # The memory of the stack machine

The stack machine and the processor share one memory. Here is what the steps of the stack machine
do to it: `SP` holds the address of the first free cell, the four base cells hold where a segment
begins, and a frame keeps the caller's return address and bases below the locals of a function.

A function is entered by `Ram.enter` and left by `Ram.leave`. Leaving takes down the frame with the
help of two scratch cells, whose contents at the end are part of the definition. -/

namespace HackVm

/-! ## Cells with a purpose -/

namespace Cell

def stackPointer : Word16 := 0

/-- Where a pop into a moving segment keeps its target. -/
def scratchAddress : Word16 := 13

/-- Where a return keeps the frame it takes down. -/
def scratchFrame : Word16 := 13

/-- Where a return keeps the address it goes back to. -/
def scratchReturn : Word16 := 14

/-- The number of cells at the bottom of the memory that have a purpose of their own. -/
def reserved : Nat := 16

/-- A cell above the reserved ones. -/
def IsFree (x : Word16) : Prop := reserved ≤ x.toNat

/-- The cells up to `n` places below an address that lies high enough are free. -/
theorem IsFree.sub {x : Word16} {n : Nat} (hx : reserved + n ≤ x.toNat) {k : Nat} (hk : k ≤ n) :
    IsFree (x - BitVec.ofNat 16 k) := by
  have hlt := x.isLt
  have hnat : (BitVec.ofNat 16 k).toNat = k := by
    rw [BitVec.toNat_ofNat, Nat.mod_eq_of_lt (by omega)]
  rw [IsFree, BitVec.toNat_sub_of_le, hnat]
  · omega
  · rw [BitVec.le_def, hnat]
    omega

/-- A free cell is none of the reserved ones. -/
theorem IsFree.ne {x c : Word16} (hx : IsFree x) (hc : c.toNat < reserved) : x ≠ c := by
  rintro rfl
  exact absurd hx (Nat.not_le.mpr hc)

end Cell

/-- The cell of a base. -/
def Base.cell : Base → Word16
  | .locals => 1
  | .arguments => 2
  | .this => 3
  | .that => 4

/-- No base cell is the stack pointer's cell or a scratch cell. -/
theorem Base.cell_ne (b : Base) :
    b.cell ≠ Cell.stackPointer ∧ b.cell ≠ Cell.scratchFrame ∧ b.cell ≠ Cell.scratchReturn := by
  cases b <;> decide

theorem Base.toNat_cell_lt (b : Base) : b.cell.toNat < Cell.reserved := by
  cases b <;> decide

namespace Ram

/-- The address of the first free cell above the stack. -/
def sp (m : Ram) : Word16 := m Cell.stackPointer

theorem apply_stackPointer (m : Ram) : m Cell.stackPointer = m.sp := rfl

/-- At least `n` words of the stack lie above the reserved cells. -/
def HasWords (m : Ram) (n : Nat) : Prop := Cell.reserved + n ≤ m.sp.toNat

/-- At least `n` words can be pushed before the stack ends at the last address. -/
def HasRoom (m : Ram) (n : Nat) : Prop := m.sp.toNat + n < 2 ^ 16

/-! ## The stack -/

/-- Pushes a word. -/
def push (m : Ram) (w : Word16) : Ram :=
  (m.set m.sp w).set Cell.stackPointer (m.sp + 1)

/-- The top word, and the memory without it. -/
def pop (m : Ram) : Word16 × Ram :=
  (m (m.sp - 1), m.set Cell.stackPointer (m.sp - 1))

/-- Replaces the top word. -/
def unary (f : Word16 → Word16) (m : Ram) : Ram :=
  m.pop.2.push (f m.pop.1)

/-- Replaces the two top words by one. -/
def binary (f : Word16 → Word16 → Word16) (m : Ram) : Ram :=
  m.pop.2.pop.2.push (f m.pop.2.pop.1 m.pop.1)

/-- Truth values are words with all bits set, or none. -/
def truth (b : Bool) : Word16 := if b then -1 else 0

/-- Computes on the top of the stack. A comparison looks at the sign of the difference. -/
def compute (m : Ram) : Operation → Ram
  | .add => m.binary (· + ·)
  | .sub => m.binary (· - ·)
  | .neg => m.unary (- ·)
  | .eq => m.binary fun x y => truth (decide (x - y = 0))
  | .gt => m.binary fun x y => truth (decide (0 < (x - y).toInt))
  | .lt => m.binary fun x y => truth (decide ((x - y).toInt < 0))
  | .and => m.binary (· &&& ·)
  | .or => m.binary (· ||| ·)
  | .not => m.unary (~~~ ·)

/-- Pushes a number of zeros. -/
def pushZeros (m : Ram) : Nat → Ram
  | 0 => m
  | k + 1 => (m.push 0).pushZeros k

variable {m : Ram}

theorem HasWords.le {k n : Nat} (h : m.HasWords n) (hk : k ≤ n) : m.HasWords k :=
  Nat.le_trans (Nat.add_le_add_left hk _) h

theorem HasRoom.le {k n : Nat} (h : m.HasRoom n) (hk : k ≤ n) : m.HasRoom k :=
  Nat.lt_of_le_of_lt (Nat.add_le_add_left hk _) h

/-- The word `k` places below the top lies in a free cell. -/
theorem HasWords.isFree {n : Nat} (h : m.HasWords n) (k : Nat) (hk : k ≤ n) :
    Cell.IsFree (m.sp - BitVec.ofNat 16 k) :=
  .sub h hk

theorem HasWords.sp_isFree {n : Nat} (h : m.HasWords n) : Cell.IsFree m.sp :=
  Nat.le_trans (Nat.le_add_right _ _) h

@[simp] theorem sp_push (m : Ram) (w : Word16) : (m.push w).sp = m.sp + 1 :=
  Ram.set_self (m.set m.sp w) (m.sp + 1) Cell.stackPointer

@[simp] theorem sp_pop (m : Ram) : m.pop.2.sp = m.sp - 1 :=
  Ram.set_self m (m.sp - 1) Cell.stackPointer

theorem HasRoom.toNat_add {n : Nat} (h : m.HasRoom n) :
    (m.sp + BitVec.ofNat 16 n).toNat = m.sp.toNat + n := by
  have hn : m.sp.toNat + n < 2 ^ 16 := h
  rw [BitVec.toNat_add, BitVec.toNat_ofNat, Nat.add_mod_mod, Nat.mod_eq_of_lt hn]

theorem HasWords.push {n : Nat} (h : m.HasWords n) (room : m.HasRoom 1) (w : Word16) :
    (m.push w).HasWords (n + 1) := by
  have hsp : (m.sp + 1).toNat = m.sp.toNat + 1 := room.toNat_add
  have hn : Cell.reserved + n ≤ m.sp.toNat := h
  rw [HasWords, sp_push, hsp]
  omega

theorem HasRoom.push {n : Nat} (h : m.HasRoom (n + 1)) (w : Word16) : (m.push w).HasRoom n := by
  have hn : m.sp.toNat + (n + 1) < 2 ^ 16 := h
  have room : m.HasRoom 1 := by rw [HasRoom]; omega
  have hsp : (m.sp + 1).toNat = m.sp.toNat + 1 := room.toNat_add
  rw [HasRoom, sp_push, hsp]
  omega

theorem HasWords.pop {n : Nat} (h : m.HasWords (n + 1)) : m.pop.2.HasWords n := by
  have hn : Cell.reserved + (n + 1) ≤ m.sp.toNat := h
  have hsp : (m.sp - 1).toNat = m.sp.toNat - 1 := by
    rw [BitVec.toNat_sub_of_le]
    · rfl
    · rw [BitVec.le_def]
      exact Nat.le_trans (by decide : (1 : Word16).toNat ≤ 1) (by omega)
  rw [HasWords, sp_pop, hsp]
  omega

theorem sp_set {x : Word16} (w : Word16) (hx : x ≠ Cell.stackPointer) : (m.set x w).sp = m.sp :=
  Ram.set_of_ne _ _ hx.symm

theorem HasWords.set {n : Nat} {x : Word16} (h : m.HasWords n) (w : Word16)
    (hx : x ≠ Cell.stackPointer) : (m.set x w).HasWords n := by
  rw [HasWords, sp_set w hx]
  exact h

/-- Popping changes the stack pointer only. -/
theorem pop_apply {x : Word16} (hx : x ≠ Cell.stackPointer) : m.pop.2 x = m x :=
  Ram.set_of_ne _ _ hx

/-- Pushing after popping replaces the top word. -/
theorem push_pop (h : m.HasWords 1) (w : Word16) : m.pop.2.push w = m.set (m.sp - 1) w := by
  have hfree : m.sp - 1 ≠ Cell.stackPointer := (h.isFree 1 (Nat.le_refl _)).ne (by decide)
  show ((m.set Cell.stackPointer (m.sp - 1)).set m.pop.2.sp w).set Cell.stackPointer
    (m.pop.2.sp + 1) = _
  rw [sp_pop, Ram.set_comm _ _ _ hfree.symm, Ram.set_set, BitVec.sub_add_cancel]
  exact Ram.set_eq_self _ _ (Ram.set_of_ne _ _ hfree.symm)

/-! ## Segments -/

/-- Pops into a cell that does not depend on the memory. -/
def popTo (m : Ram) (cell : Word16) : Ram :=
  m.pop.2.set cell m.pop.1

/-- Pops into a cell of a segment that is found through its base. The target is computed first and
kept in a scratch cell, and the word is stored last. -/
def popBased (m : Ram) (base : Base) (index : Word16) : Ram :=
  let target := m base.cell + index
  (m.set Cell.scratchAddress target).popTo target

/-- A scratch cell does not take part in a pop. -/
theorem popTo_set {x target : Word16} (h : m.HasWords 1) (w : Word16)
    (hx : x ≠ Cell.stackPointer) (hreserved : x.toNat < Cell.reserved)
    (htarget : x ≠ target) : (m.set x w).popTo target = (m.popTo target).set x w := by
  have htop : m.sp - 1 ≠ x := (h.isFree 1 (Nat.le_refl _)).ne hreserved
  rw [popTo, popTo, pop, pop, sp_set w hx, Ram.set_of_ne _ _ htop, Ram.set_comm _ _ _ hx,
    Ram.set_comm _ _ _ htarget]

/-! ## Frames -/

/-- Pushes the words in a row of base cells. -/
def pushBases (m : Ram) : List Base → Ram
  | [] => m
  | b :: bases => (m.push (m b.cell)).pushBases bases

/-- Pushes a return address and the bases of the caller, and sets the bases of the function that
is called with a number of arguments. -/
def enter (m : Ram) (returnAddress arguments : Word16) : Ram :=
  let m := (m.push returnAddress).pushBases Base.all
  let m := m.set Base.arguments.cell (m.sp - 5 - arguments)
  m.set Base.locals.cell m.sp

/-- The address that the current function returns to. -/
def returnAddress (m : Ram) : Word16 :=
  m (m Base.locals.cell - 5)

/-- Gives the top word to the caller in place of the first argument, which becomes the top of the
caller's stack. The return address is kept in a scratch cell, since without arguments the word is
written over it. -/
def giveResult (m : Ram) : Ram :=
  let target := m Base.arguments.cell
  ((m.set Cell.scratchReturn m.returnAddress).popTo target).set Cell.stackPointer (target + 1)

/-- Gives the top word to the caller, and takes the bases of the caller from the frame, the last
one first. A scratch cell ends up at the last base that was taken. -/
def leave (m : Ram) : Ram :=
  let frame := m Base.locals.cell
  let m := m.giveResult
  let m := m.set Base.that.cell (m (frame - 1))
  let m := m.set Base.this.cell (m (frame - 2))
  let m := m.set Base.arguments.cell (m (frame - 3))
  let m := m.set Base.locals.cell (m (frame - 4))
  m.set Cell.scratchFrame (frame - 4)

/-- What leaving a function asks of the memory: a word to give to the caller, and a frame and a
place for the word above the reserved cells. -/
structure HasFrame (m : Ram) : Prop where
  words : m.HasWords 1
  frame : Cell.reserved + 5 ≤ (m Base.locals.cell).toNat
  target : Cell.IsFree (m Base.arguments.cell)

/-- The cells of a frame are free. -/
theorem HasFrame.isFree (h : m.HasFrame) (k : Nat) (hk : k ≤ 5) :
    Cell.IsFree (m Base.locals.cell - BitVec.ofNat 16 k) :=
  .sub h.frame hk

/-- The return address is still in its scratch cell when a function is left. -/
theorem leave_scratchReturn (h : m.HasFrame) : m.leave Cell.scratchReturn = m.returnAddress := by
  have htarget : Cell.scratchReturn ≠ m Base.arguments.cell := (h.target.ne (by decide)).symm
  simp only [leave, giveResult]
  rw [set_of_ne _ _ (by decide), set_of_ne _ _ (by decide), set_of_ne _ _ (by decide),
    set_of_ne _ _ (by decide), set_of_ne _ _ (by decide), set_of_ne _ _ (by decide), popTo,
    set_of_ne _ _ htarget, pop_apply (by decide), set_self]

end Ram

end HackVm
