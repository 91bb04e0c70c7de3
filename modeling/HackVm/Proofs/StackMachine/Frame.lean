import HackVm.Proofs.StackMachine.Memory

set_option autoImplicit false

/-! # Frames

What entering a function leaves in memory, and what leaving it takes from there. A frame at `s`
holds the return address and above it the four bases of the caller (`FrameAt`). Entering makes
one and touches nothing else but the stack pointer and two bases; leaving restores all four bases
from one, as long as the result does not go into it. -/

namespace HackVm.Ram

variable {m : Ram}

/-- A frame at `s`, with the bases that `caller` has. -/
structure FrameAt (m : Ram) (s returnAddress : Word16) (caller : Ram) : Prop where
  returnAddress : m s = returnAddress
  locals : m (s + 1) = caller Base.locals.cell
  arguments : m (s + 2) = caller Base.arguments.cell
  this : m (s + 3) = caller Base.this.cell
  that : m (s + 4) = caller Base.that.cell

/-! ## Pushing a frame -/

theorem push_apply {x : Word16} (w : Word16) (hx : x ≠ Cell.stackPointer) (hs : x ≠ m.sp) :
    m.push w x = m x := by
  rw [push, set_of_ne _ _ hx, set_of_ne _ _ hs]

theorem push_apply_sp (hm : m.HasWords 0) (w : Word16) : m.push w m.sp = w := by
  rw [push, set_of_ne _ _ (hm.sp_isFree.ne (by decide)), set_self]

/-- Different places above the stack are different cells. -/
theorem HasRoom.ne {n j k : Nat} (room : m.HasRoom n) (hj : j ≤ n) (hk : k ≤ n) (hjk : j ≠ k) :
    m.sp + BitVec.ofNat 16 j ≠ m.sp + BitVec.ofNat 16 k := by
  intro h
  have hnat := congrArg BitVec.toNat h
  rw [(room.le hj).toNat_add, (room.le hk).toNat_add] at hnat
  exact hjk (Nat.add_left_cancel hnat)

theorem HasWords.add_isFree {n k : Nat} (hm : m.HasWords 0) (room : m.HasRoom n) (hk : k ≤ n) :
    Cell.IsFree (m.sp + BitVec.ofNat 16 k) := by
  rw [Cell.IsFree, (room.le hk).toNat_add]
  exact Nat.le_trans hm (Nat.le_add_right _ _)

theorem add_ofNat_succ (w : Word16) (k : Nat) :
    w + 1 + BitVec.ofNat 16 k = w + BitVec.ofNat 16 (k + 1) := by
  rw [BitVec.ofNat_add, BitVec.add_comm (BitVec.ofNat 16 k), ← BitVec.add_assoc]
  rfl

theorem HasRoom.sp_ne {n k : Nat} (room : m.HasRoom n) (hk : k < n) :
    m.sp ≠ m.sp + BitVec.ofNat 16 (k + 1) := by
  have hzero : m.sp + BitVec.ofNat 16 0 = m.sp := BitVec.add_zero _
  have hne := room.ne (Nat.zero_le _) hk (Nat.succ_ne_zero k).symm
  rwa [hzero] at hne

/-- The words of a row of base cells end up above the stack, and nothing else changes but the
stack pointer. -/
theorem pushBases_apply {bases : List Base} (hm : m.HasWords 0) (room : m.HasRoom bases.length) :
    (m.pushBases bases).sp = m.sp + BitVec.ofNat 16 bases.length ∧
      (∀ k (hk : k < bases.length),
        m.pushBases bases (m.sp + BitVec.ofNat 16 k) = m bases[k].cell) ∧
      ∀ x, x ≠ Cell.stackPointer → (∀ k < bases.length, x ≠ m.sp + BitVec.ofNat 16 k) →
        m.pushBases bases x = m x := by
  induction bases generalizing m with
  | nil => exact ⟨(BitVec.add_zero _).symm, fun k hk => absurd hk (Nat.not_lt_zero k),
      fun _ _ _ => rfl⟩
  | cons b bases ih =>
    rw [List.length_cons] at room
    have words : (m.push (m b.cell)).HasWords 0 :=
      (hm.push (room.le (Nat.le_add_left _ _)) _).le (Nat.zero_le _)
    obtain ⟨hsp, hbases, hframe⟩ := ih words (room.push _)
    rw [sp_push] at hsp hbases hframe
    have hzero : m.sp + BitVec.ofNat 16 0 = m.sp := BitVec.add_zero _
    refine ⟨?_, ?_, ?_⟩
    · rw [pushBases, hsp, List.length_cons, add_ofNat_succ]
    · intro k hk
      cases k with
      | zero =>
        have hfresh : ∀ k < bases.length, m.sp ≠ m.sp + 1 + BitVec.ofNat 16 k := by
          intro k hk
          rw [add_ofNat_succ]
          exact room.sp_ne (Nat.lt_succ_of_lt hk)
        rw [hzero, pushBases, hframe _ (hm.sp_isFree.ne (by decide)) hfresh, push_apply_sp hm,
          List.getElem_cons_zero]
      | succ k =>
        have hk' : k < bases.length := Nat.lt_of_succ_lt_succ hk
        have hne : bases[k].cell ≠ m.sp := by
          intro h
          exact hm.sp_isFree.ne bases[k].toNat_cell_lt h.symm
        rw [pushBases, List.getElem_cons_succ, ← add_ofNat_succ, hbases k hk',
          push_apply _ bases[k].cell_ne.1 hne]
    · intro x hx hk
      have hsp : x ≠ m.sp := by
        intro h
        exact hk 0 (Nat.succ_pos _) (h.trans hzero.symm)
      rw [pushBases, hframe x hx ?_, push_apply _ hx hsp]
      intro k hk'
      rw [add_ofNat_succ]
      exact hk (k + 1) (Nat.succ_lt_succ hk')

/-! ## Entering -/

/-- Beside two bases a function is entered with what was pushed. -/
theorem enter_of_ne {returnAddress arguments x : Word16} (hlocals : x ≠ Base.locals.cell)
    (harguments : x ≠ Base.arguments.cell) :
    m.enter returnAddress arguments x = (m.push returnAddress).pushBases Base.all x := by
  rw [enter, set_of_ne _ _ hlocals, set_of_ne _ _ harguments]

/-- Entering a function makes a frame at the top of the stack and sets the stack pointer and two
bases; nothing else changes. -/
theorem enter_apply (hm : m.HasWords 0) (room : m.HasRoom 5) (returnAddress arguments : Word16) :
    let m' := m.enter returnAddress arguments
    m'.FrameAt m.sp returnAddress m ∧ m'.sp = m.sp + 5 ∧ m' Base.locals.cell = m.sp + 5 ∧
      m' Base.arguments.cell = m.sp - arguments ∧
      ∀ x, x ≠ Cell.stackPointer → x ≠ Base.locals.cell → x ≠ Base.arguments.cell →
        (∀ k < 5, x ≠ m.sp + BitVec.ofNat 16 k) → m' x = m x := by
  intro m'
  have words : (m.push returnAddress).HasWords 0 :=
    (hm.push (room.le (by decide)) _).le (Nat.zero_le _)
  obtain ⟨hsp, hbases, hframe⟩ :=
    @pushBases_apply _ Base.all words (room.push returnAddress)
  rw [sp_push] at hsp hbases hframe
  have hfive : m.sp + 1 + BitVec.ofNat 16 Base.all.length = m.sp + 5 :=
    BitVec.add_assoc _ _ _
  have hzero : m.sp + BitVec.ofNat 16 0 = m.sp := BitVec.add_zero _
  rw [hfive] at hsp
  have hcell : ∀ k ≤ 5, ∀ b : Base, m.sp + BitVec.ofNat 16 k ≠ b.cell :=
    fun k hk b => (hm.add_isFree room hk).ne b.toNat_cell_lt
  have henter : ∀ x, x ≠ Base.locals.cell → x ≠ Base.arguments.cell →
      m' x = (m.push returnAddress).pushBases Base.all x :=
    fun _ => enter_of_ne
  have hbase : ∀ k (hk : k < Base.all.length),
      m' (m.sp + BitVec.ofNat 16 (k + 1)) = m Base.all[k].cell := by
    intro k hk
    have hne : Base.all[k].cell ≠ m.sp := by
      intro h
      exact hm.sp_isFree.ne (Base.toNat_cell_lt _) h.symm
    have hle : k + 1 ≤ 5 := Nat.succ_le_of_lt (Nat.lt_succ_of_lt hk)
    rw [henter _ (hcell _ hle _) (hcell _ hle _), ← add_ofNat_succ,
      hbases k hk, push_apply _ (Base.cell_ne _).1 hne]
  refine ⟨⟨?_, hbase 0 (by decide), hbase 1 (by decide), hbase 2 (by decide),
    hbase 3 (by decide)⟩, ?_, ?_, ?_, ?_⟩
  · -- the return address lies below the bases, which leave it alone
    have hfresh : ∀ k < Base.all.length, m.sp ≠ m.sp + 1 + BitVec.ofNat 16 k := by
      intro k hk
      rw [add_ofNat_succ]
      exact room.sp_ne (Nat.lt_succ_of_lt hk)
    rw [henter _ (hm.sp_isFree.ne (Base.toNat_cell_lt _))
      (hm.sp_isFree.ne (Base.toNat_cell_lt _)), hframe _ (hm.sp_isFree.ne (by decide)) hfresh,
      push_apply_sp hm]
  · exact (henter _ (by decide) (by decide)).trans hsp
  · show Ram.set _ _ _ _ = _
    rw [set_self, sp_set _ (by decide), hsp]
  · show Ram.set _ _ _ _ = _
    rw [set_of_ne _ _ (by decide), set_self, hsp]
    exact congrArg (· - arguments) (BitVec.add_sub_cancel _ _)
  · intro x hx hlocals harguments hk
    have hne : x ≠ m.sp := hzero ▸ hk 0 (by decide)
    rw [henter x hlocals harguments, hframe x hx ?_, push_apply _ hx hne]
    intro k hk'
    rw [add_ofNat_succ]
    exact hk (k + 1) (Nat.succ_lt_succ hk')

/-! ## Leaving -/

theorem add_sub_ofNat (w : Word16) {j k : Nat} (h : k ≤ j) :
    w + BitVec.ofNat 16 j - BitVec.ofNat 16 k = w + BitVec.ofNat 16 (j - k) := by
  have hj : BitVec.ofNat 16 j = BitVec.ofNat 16 (j - k) + BitVec.ofNat 16 k := by
    rw [← BitVec.ofNat_add, Nat.sub_add_cancel h]
  rw [hj, ← BitVec.add_assoc, BitVec.add_sub_cancel]

theorem giveResult_apply {x : Word16} (hreturn : x ≠ Cell.scratchReturn)
    (hx : x ≠ Cell.stackPointer) (htarget : x ≠ m Base.arguments.cell) :
    m.giveResult x = m x := by
  rw [giveResult, set_of_ne _ _ hx, popTo, set_of_ne _ _ htarget, pop_apply hx,
    set_of_ne _ _ hreturn]

/-- The cells of the frame are read as they were, unless the result goes into one of them. -/
theorem HasFrame.giveResult_frame (h : m.HasFrame) {k : Nat} (hk : k ≤ 5)
    (htarget : m Base.locals.cell - BitVec.ofNat 16 k ≠ m Base.arguments.cell) :
    m.giveResult (m Base.locals.cell - BitVec.ofNat 16 k) =
      m (m Base.locals.cell - BitVec.ofNat 16 k) :=
  giveResult_apply ((h.isFree k hk).ne (by decide)) ((h.isFree k hk).ne (by decide)) htarget

/-- Leaving takes all bases from the frame, if the result does not go into it. -/
theorem HasFrame.leave_bases (h : m.HasFrame)
    (htarget : ∀ k, 1 ≤ k → k ≤ 4 →
      m Base.locals.cell - BitVec.ofNat 16 k ≠ m Base.arguments.cell) :
    m.leave Base.locals.cell = m (m Base.locals.cell - 4) ∧
      m.leave Base.arguments.cell = m (m Base.locals.cell - 3) ∧
      m.leave Base.this.cell = m (m Base.locals.cell - 2) ∧
      m.leave Base.that.cell = m (m Base.locals.cell - 1) := by
  have hne : ∀ k ≤ 5, ∀ b : Base, m Base.locals.cell - BitVec.ofNat 16 k ≠ b.cell :=
    fun k hk b => (h.isFree k hk).ne b.toNat_cell_lt
  have htwo : ∀ b : Base, m Base.locals.cell - 2 ≠ b.cell := hne 2 (by decide)
  have hthree : ∀ b : Base, m Base.locals.cell - 3 ≠ b.cell := hne 3 (by decide)
  have hfour : ∀ b : Base, m Base.locals.cell - 4 ≠ b.cell := hne 4 (by decide)
  have hread : ∀ k, 1 ≤ k → k ≤ 4 → m.giveResult (m Base.locals.cell - BitVec.ofNat 16 k) =
      m (m Base.locals.cell - BitVec.ofNat 16 k) :=
    fun k hk hk' => h.giveResult_frame (Nat.le_succ_of_le hk') (htarget k hk hk')
  -- the bases that were restored before lie outside of the frame
  simp only [leave]
  refine ⟨?_, ?_, ?_, ?_⟩
  · rw [set_of_ne _ _ (by decide), set_self, set_of_ne _ _ (hfour _), set_of_ne _ _ (hfour _),
      set_of_ne _ _ (hfour _)]
    exact hread 4 (by decide) (by decide)
  · rw [set_of_ne _ _ (by decide), set_of_ne _ _ (by decide), set_self,
      set_of_ne _ _ (hthree _), set_of_ne _ _ (hthree _)]
    exact hread 3 (by decide) (by decide)
  · rw [set_of_ne _ _ (by decide), set_of_ne _ _ (by decide), set_of_ne _ _ (by decide),
      set_self, set_of_ne _ _ (htwo _)]
    exact hread 2 (by decide) (by decide)
  · rw [set_of_ne _ _ (by decide), set_of_ne _ _ (by decide), set_of_ne _ _ (by decide),
      set_of_ne _ _ (by decide), set_self]
    exact hread 1 (by decide) (by decide)

/-- Beside the bases and a scratch cell a function is left with its result given. -/
theorem leave_of_ne {x : Word16} (hbase : ∀ b : Base, x ≠ b.cell)
    (hscratch : x ≠ Cell.scratchFrame) : m.leave x = m.giveResult x := by
  simp only [leave]
  rw [set_of_ne _ _ hscratch, set_of_ne _ _ (hbase _), set_of_ne _ _ (hbase _),
    set_of_ne _ _ (hbase _), set_of_ne _ _ (hbase _)]

theorem leave_sp (m : Ram) : m.leave.sp = m Base.arguments.cell + 1 := by
  have hne : ∀ b : Base, Cell.stackPointer ≠ b.cell := fun b => b.cell_ne.1.symm
  exact (leave_of_ne hne (by decide)).trans (set_self _ _ _)

/-- The result is the top of the caller's stack. -/
theorem HasFrame.leave_target (h : m.HasFrame) :
    m.leave (m Base.arguments.cell) = m (m.sp - 1) := by
  have htop : m.sp - 1 ≠ Cell.scratchReturn :=
    (h.words.isFree 1 (Nat.le_refl _)).ne (by decide)
  rw [leave_of_ne (fun b => h.target.ne b.toNat_cell_lt) (h.target.ne (by decide)), giveResult,
    set_of_ne _ _ (h.target.ne (by decide)), popTo, set_self, pop, sp_set _ (by decide),
    set_of_ne _ _ htop]

end HackVm.Ram
