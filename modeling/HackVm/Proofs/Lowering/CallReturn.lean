import HackVm.Proofs.Lowering.Effects
import HackVm.Proofs.StackMachine.Frame

set_option autoImplicit false

/-! # Calls and returns

A call and the return of the called function are two pieces of code that may stand far apart, and
between them anything can happen. What they agree on is the frame: a return that finds the frame
of a call as the call made it goes on behind that call, with the caller's bases as they were and
the result in place of the arguments. -/

namespace HackVm.Sequence

variable {σ : Symbols} {rom : Rom} {i j : Nat} {m m' : Ram}

/-- The frame of a call with `n` arguments, as the return of the called function finds it. -/
theorem hasFrame_of_frameAt {n : Nat} (hlow : n + 16 ≤ m.sp.toNat) (room : m.HasRoom 5)
    (hlocals : m' Base.locals.cell = m.sp + 5)
    (harguments : m' Base.arguments.cell = m.sp - BitVec.ofNat 16 n)
    (hsp : m.sp.toNat + 6 ≤ m'.sp.toNat) : m'.HasFrame := by
  have hfive : (m.sp + 5).toNat = m.sp.toNat + 5 := room.toNat_add
  refine ⟨?_, ?_, ?_⟩
  · rw [Ram.HasWords, Cell.reserved]
    omega
  · rw [hlocals, hfive, Cell.reserved]
    omega
  · rw [harguments]
    exact .sub (n := n) (by rw [Cell.reserved]; omega) (Nat.le_refl n)

/-- The place for the result lies below the frame, or in the cell of the return address. -/
theorem frame_ne_target {n k : Nat} (hlow : n + 16 ≤ m.sp.toNat) (room : m.HasRoom 5)
    (hk : 1 ≤ k) (hk' : k ≤ 4) :
    m.sp + 5 - BitVec.ofNat 16 k ≠ m.sp - BitVec.ofNat 16 n := by
  intro h
  have hn : (BitVec.ofNat 16 n).toNat = n := by
    rw [BitVec.toNat_ofNat]
    exact Nat.mod_eq_of_lt (by have := m.sp.isLt; omega)
  have htarget : (m.sp - BitVec.ofNat 16 n).toNat = m.sp.toNat - n := by
    rw [BitVec.toNat_sub_of_le, hn]
    rw [BitVec.le_def, hn]
    omega
  have hframe : (m.sp + 5 - BitVec.ofNat 16 k).toNat = m.sp.toNat + (5 - k) := by
    have hsub := Ram.add_sub_ofNat m.sp (j := 5) (k := k) (by omega)
    exact (congrArg BitVec.toNat hsub).trans (room.le (Nat.sub_le 5 k)).toNat_add
  rw [h, htarget] at hframe
  omega

/-- A call leads to the called function with a frame above the arguments, and every return that
finds this frame leads back behind the call: the result is in place of the arguments, the bases
are those of the caller, and of the other cells only the two scratch cells may have changed. -/
theorem call_ret_restore_caller (hσ : σ.Standard) {callee back : String} {n : Nat}
    (hcall : Placed σ rom i (call callee n back)) (hlow : n + 16 ≤ m.sp.toNat)
    (hhigh : m.sp.toNat ≤ 32000) :
    (σ back).toNat = i + codeSize (call callee n back) ∧
    (∃ m', Leads rom i m (σ callee).toNat m' ∧ m'.FrameAt m.sp (σ back) m ∧
      m' Base.arguments.cell = m.sp - BitVec.ofNat 16 n ∧ m' Base.locals.cell = m.sp + 5 ∧
      m'.sp = m.sp + 5 ∧
      ∀ x, x ≠ Cell.stackPointer → x ≠ Base.locals.cell → x ≠ Base.arguments.cell →
        (∀ k < 5, x ≠ m.sp + BitVec.ofNat 16 k) → m' x = m x) ∧
    ∀ (j : Nat) (m' : Ram), Placed σ rom j ret → m'.FrameAt m.sp (σ back) m →
      m' Base.arguments.cell = m.sp - BitVec.ofNat 16 n → m' Base.locals.cell = m.sp + 5 →
      m.sp.toNat + 6 ≤ m'.sp.toNat →
      ∃ m'', Leads rom j m' (i + codeSize (call callee n back)) m'' ∧
        m'' (m.sp - BitVec.ofNat 16 n) = m' (m'.sp - 1) ∧
        m''.sp = m.sp - BitVec.ofNat 16 n + 1 ∧ (∀ b : Base, m'' b.cell = m b.cell) ∧
        ∀ x, x ≠ m.sp - BitVec.ofNat 16 n → x ≠ Cell.stackPointer → (∀ b : Base, x ≠ b.cell) →
          x ≠ Cell.scratchFrame → x ≠ Cell.scratchReturn → m'' x = m' x := by
  have words : m.HasWords 0 := Nat.le_trans (Nat.le_add_left 16 n) hlow
  have room : m.HasRoom 5 := by
    rw [Ram.HasRoom]
    omega
  obtain ⟨hback, hlead⟩ := leads_call hσ hcall words room
  refine ⟨hback, ?_, ?_⟩
  · obtain ⟨hframe, hsp, hlocals, harguments, hrest⟩ :=
      Ram.enter_apply words room (σ back) (BitVec.ofInt 16 n)
    rw [BitVec.ofInt_natCast] at hframe hsp hlocals harguments hrest hlead
    exact ⟨_, hlead, hframe, harguments, hlocals, hsp, hrest⟩
  · intro j m' hret hframe harguments hlocals hsp
    have hm : m'.HasFrame := hasFrame_of_frameAt hlow room hlocals harguments hsp
    have hleads := leads_ret hσ hret hm
    have haddress : m'.returnAddress = σ back := by
      rw [Ram.returnAddress, hlocals, BitVec.add_sub_cancel]
      exact hframe.returnAddress
    rw [haddress, hback] at hleads
    -- with no arguments the result goes where the return address was, below the saved bases
    obtain ⟨hl, ha, hthis, hthat⟩ := hm.leave_bases fun k hk hk' => by
      rw [hlocals, harguments]
      exact frame_ne_target hlow room hk hk'
    have hcell : ∀ k ≤ 5, m' Base.locals.cell - BitVec.ofNat 16 k =
        m.sp + BitVec.ofNat 16 (5 - k) := by
      intro k hk
      rw [hlocals]
      exact Ram.add_sub_ofNat m.sp hk
    refine ⟨m'.leave, hleads, ?_, ?_, ?_, ?_⟩
    · rw [← harguments]
      exact hm.leave_target
    · rw [← harguments]
      exact m'.leave_sp
    · intro b
      cases b with
      | locals => exact hl.trans ((congrArg m' (hcell 4 (by decide))).trans hframe.locals)
      | arguments => exact ha.trans ((congrArg m' (hcell 3 (by decide))).trans hframe.arguments)
      | this => exact hthis.trans ((congrArg m' (hcell 2 (by decide))).trans hframe.this)
      | that => exact hthat.trans ((congrArg m' (hcell 1 (by decide))).trans hframe.that)
    · intro x htarget hx hbase hscratch hreturn
      rw [Ram.leave_of_ne hbase hscratch, Ram.giveResult_apply hreturn hx]
      rw [harguments]
      exact htarget

/-- A call of a function with one argument that returns 7. -/
def callSeven : List Line :=
  call "f" 1 "back" ++ (([.label "f"] ++ pushConstant 7) ++ ret)

theorem assemblable_callSeven : Assemblable callSeven := by decide +kernel

/-- A memory with 300 in the stack pointer and 11 for `THAT`. -/
def callSevenRam : Ram := fun x => if x = 0 then 300 else if x = 4 then 11 else 0

/-- The call comes back with 7 in place of the argument, and with the `THAT` of the caller. -/
theorem call_ret_restore_caller_seven :
    ∃ m : Ram, Leads (assemble callSeven) 0 callSevenRam (codeSize (call "f" 1 "back")) m ∧
      m 299 = 7 ∧ m.sp = 300 ∧ m Base.that.cell = 11 := by
  have hσ := standard_symbolsOf callSeven
  have hplaced := placed_assemble assemblable_callSeven
  generalize symbolsOf callSeven = σ at hσ hplaced
  generalize assemble callSeven = rom at hplaced ⊢
  obtain ⟨hcall, hrest⟩ := placed_append.mp hplaced
  obtain ⟨hbody, hret⟩ := placed_append.mp hrest
  obtain ⟨hlabel, hpush⟩ := placed_append.mp hbody
  obtain ⟨-, ⟨m', hlead, hframe, harguments, hlocals, hsp, -⟩, hreturn⟩ :=
    call_ret_restore_caller hσ (n := 1) (m := callSevenRam) hcall (by decide) (by decide)
  have hsp' : m'.sp = 305 := hsp
  have words : m'.HasWords 0 := by
    rw [Ram.HasWords, hsp']
    decide
  -- between call and return the function pushes 7, which leaves the frame alone
  have hbodyLead := leads_pushConstant hσ hpush words
  have hkeep : ∀ x : Word16, x ≠ 0 → x ≠ 305 → m'.push 7 x = m' x := fun x hx hs =>
    Ram.push_apply 7 hx (by rw [hsp']; exact hs)
  have hframe' : (m'.push 7).FrameAt 300 (σ "back") callSevenRam :=
    ⟨(hkeep _ (by decide) (by decide)).trans hframe.returnAddress,
      (hkeep _ (by decide) (by decide)).trans hframe.locals,
      (hkeep _ (by decide) (by decide)).trans hframe.arguments,
      (hkeep _ (by decide) (by decide)).trans hframe.this,
      (hkeep _ (by decide) (by decide)).trans hframe.that⟩
  have htop : (m'.push 7).sp = 306 := by
    rw [Ram.sp_push, hsp']
    rfl
  obtain ⟨m'', hback, hresult, hstack, hbases, -⟩ := hreturn _ _ hret hframe'
    ((hkeep _ (by decide) (by decide)).trans harguments)
    ((hkeep _ (by decide) (by decide)).trans hlocals) (by rw [htop]; decide)
  rw [Nat.zero_add] at hback
  refine ⟨m'', ?_, ?_, hstack, hbases .that⟩
  · rw [hlabel.label] at hlead
    exact hlead.trans (hbodyLead.trans hback)
  · refine hresult.trans ?_
    rw [htop]
    exact (congrArg _ hsp'.symm).trans (Ram.push_apply_sp words 7)

end HackVm.Sequence
