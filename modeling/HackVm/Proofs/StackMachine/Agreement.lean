import HackVm.Proofs.StackMachine.Memory

set_option autoImplicit false

/-! # Memories up to scratch cells

Generated code keeps a target, a frame or a return address in two scratch cells, which the stack
machine itself has no use for. Memories are therefore compared on all other cells (`Ram.Agree`).
Whatever the stack machine does to two memories that agree, they agree behind it, as long as it
reads no scratch cell. -/

namespace HackVm

/-- The number of words that a computation takes from the stack. -/
def Operation.arity (op : Operation) : Nat := if op.isUnary then 1 else 2

/-- A cell that generated code uses for itself. -/
def Cell.IsScratch (x : Word16) : Prop := x = Cell.scratchFrame ∨ x = Cell.scratchReturn

instance (x : Word16) : Decidable (Cell.IsScratch x) := inferInstanceAs (Decidable (_ ∨ _))

theorem Cell.IsFree.not_isScratch {x : Word16} (h : Cell.IsFree x) : ¬ Cell.IsScratch x := by
  rintro (rfl | rfl)
  · exact h.ne (by decide) rfl
  · exact h.ne (by decide) rfl

theorem Base.not_isScratch (b : Base) : ¬ Cell.IsScratch b.cell := by
  cases b <;> decide

namespace Ram

/-- Takes down a frame without the help of scratch cells: the top word goes to the caller in place
of the first argument, and the bases of the caller come back. -/
def takeDown (m : Ram) : Ram :=
  let frame := m Base.locals.cell
  let target := m Base.arguments.cell
  let m := (m.popTo target).set Cell.stackPointer (target + 1)
  let m := m.set Base.that.cell (m (frame - 1))
  let m := m.set Base.this.cell (m (frame - 2))
  let m := m.set Base.arguments.cell (m (frame - 3))
  m.set Base.locals.cell (m (frame - 4))

/-- Two memories have the same words outside of the scratch cells. -/
def Agree (m m' : Ram) : Prop := ∀ x, ¬ Cell.IsScratch x → m x = m' x

namespace Agree

variable {m m' : Ram}

theorem refl (m : Ram) : m.Agree m := fun _ _ => rfl

/-- Writing the same word into both memories. -/
theorem set (h : m.Agree m') (x w : Word16) : (m.set x w).Agree (m'.set x w) := by
  intro y hy
  by_cases hxy : y = x
  · rw [hxy, set_self, set_self]
  · rw [set_of_ne _ _ hxy, set_of_ne _ _ hxy]
    exact h y hy

/-- Writing into a scratch cell of one memory. -/
theorem set_scratch (h : m.Agree m') {x : Word16} (hx : Cell.IsScratch x) (w : Word16) :
    (m.set x w).Agree m' := by
  intro y hy
  have hne : y ≠ x := by
    rintro rfl
    exact hy hx
  rw [set_of_ne _ _ hne]
  exact h y hy

/-! ## What both memories have -/

theorem sp (h : m.Agree m') : m.sp = m'.sp := h _ (by decide)

theorem base (h : m.Agree m') (b : Base) : m b.cell = m' b.cell := h _ b.not_isScratch

theorem free (h : m.Agree m') {x : Word16} (hx : Cell.IsFree x) : m x = m' x :=
  h x hx.not_isScratch

theorem hasWords (h : m.Agree m') {n : Nat} (hm : m'.HasWords n) : m.HasWords n := by
  rw [HasWords, h.sp]
  exact hm

theorem hasRoom (h : m.Agree m') {n : Nat} (hm : m'.HasRoom n) : m.HasRoom n := by
  rw [HasRoom, h.sp]
  exact hm

theorem hasFrame (h : m.Agree m') (hm : m'.HasFrame) : m.HasFrame where
  words := h.hasWords hm.words
  frame := by
    rw [h.base]
    exact hm.frame
  target := by
    rw [h.base]
    exact hm.target

theorem returnAddress (h : m.Agree m') (hm : m'.HasFrame) :
    m.returnAddress = m'.returnAddress := by
  rw [Ram.returnAddress, Ram.returnAddress, h.base]
  exact h.free (hm.isFree 5 (Nat.le_refl _))

/-- Copying a word that both memories have. -/
theorem copy (h : m.Agree m') {x : Word16} (hx : Cell.IsFree x) (y : Word16) :
    (m.set y (m x)).Agree (m'.set y (m' x)) := by
  rw [h.free hx]
  exact h.set y _

/-! ## The stack -/

theorem push (h : m.Agree m') (w : Word16) : (m.push w).Agree (m'.push w) := by
  rw [Ram.push, Ram.push, h.sp]
  exact (h.set _ w).set _ _

theorem pop (h : m.Agree m') : m.pop.2.Agree m'.pop.2 := by
  rw [Ram.pop, Ram.pop, h.sp]
  exact h.set _ _

theorem top (h : m.Agree m') (hm : m'.HasWords 1) : m.pop.1 = m'.pop.1 := by
  rw [Ram.pop, Ram.pop, h.sp]
  exact h.free (hm.isFree 1 (Nat.le_refl _))

theorem unary (h : m.Agree m') (hm : m'.HasWords 1) (f : Word16 → Word16) :
    (m.unary f).Agree (m'.unary f) := by
  rw [Ram.unary, Ram.unary, h.top hm]
  exact h.pop.push _

theorem binary (h : m.Agree m') (hm : m'.HasWords 2) (f : Word16 → Word16 → Word16) :
    (m.binary f).Agree (m'.binary f) := by
  rw [Ram.binary, Ram.binary, h.top (hm.le (by decide)), h.pop.top hm.pop]
  exact h.pop.pop.push _

theorem compute (h : m.Agree m') {op : Operation} (hm : m'.HasWords op.arity) :
    (m.compute op).Agree (m'.compute op) := by
  unfold Ram.compute
  cases op with
  | neg | not => exact h.unary hm _
  | _ => exact h.binary hm _

theorem pushZeros (h : m.Agree m') (k : Nat) : (m.pushZeros k).Agree (m'.pushZeros k) := by
  induction k generalizing m m' with
  | zero => exact h
  | succ k ih => exact ih (h.push 0)

theorem popTo (h : m.Agree m') (hm : m'.HasWords 1) (x : Word16) :
    (m.popTo x).Agree (m'.popTo x) := by
  rw [Ram.popTo, Ram.popTo, h.top hm]
  exact h.pop.set x _

/-- The scratch cell of a pop into a moving segment is not seen. -/
theorem popBased (h : m.Agree m') (hm : m'.HasWords 1) (b : Base) (n : Word16) :
    (m.popBased b n).Agree (m'.popTo (m' b.cell + n)) := by
  rw [Ram.popBased, h.base]
  exact (h.set_scratch (.inl rfl) _).popTo hm _

/-! ## Frames -/

theorem pushBases (h : m.Agree m') (bases : List Base) :
    (m.pushBases bases).Agree (m'.pushBases bases) := by
  induction bases generalizing m m' with
  | nil => exact h
  | cons b bases ih =>
    rw [Ram.pushBases, Ram.pushBases, h.base]
    exact ih (h.push _)

theorem enter (h : m.Agree m') (returnAddress arguments : Word16) :
    (m.enter returnAddress arguments).Agree (m'.enter returnAddress arguments) := by
  have hpush := (h.push returnAddress).pushBases Base.all
  have harguments := hpush.set Base.arguments.cell
    (((m.push returnAddress).pushBases Base.all).sp - 5 - arguments)
  rw [Ram.enter, Ram.enter, ← hpush.sp, harguments.sp]
  exact harguments.set _ _

/-- The scratch cells of a return are not seen. -/
theorem leave (h : m.Agree m') (hm : m'.HasFrame) : m.leave.Agree m'.takeDown := by
  have hgive : m.giveResult.Agree ((m'.popTo (m' Base.arguments.cell)).set Cell.stackPointer
      (m' Base.arguments.cell + 1)) := by
    rw [Ram.giveResult, h.base]
    exact ((h.set_scratch (.inr rfl) _).popTo hm.words _).set _ _
  have hfree : ∀ n ≤ 5, Cell.IsFree (m' Base.locals.cell - BitVec.ofNat 16 n) := hm.isFree
  simp only [Ram.leave, Ram.takeDown]
  rw [h.base]
  refine set_scratch ?_ (.inl rfl) _
  -- the bases come from cells of the frame, which are no scratch cells
  have hthat := hgive.copy (hfree 1 (by decide)) Base.that.cell
  have hthis := hthat.copy (hfree 2 (by decide)) Base.this.cell
  have harguments := hthis.copy (hfree 3 (by decide)) Base.arguments.cell
  exact harguments.copy (hfree 4 (by decide)) Base.locals.cell

end Agree

end Ram

end HackVm
