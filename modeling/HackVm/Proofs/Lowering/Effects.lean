import HackVm.Lowering.Sequence
import HackVm.Proofs.Machine.Assembler
import HackVm.Proofs.StackMachine.Memory

set_option autoImplicit false

/-! # What code sequences do

For each code sequence the address and the memory that it leads to, from any contents of `A` and
`D`. Sequences that push or pop expect the stack above the reserved cells; then they do to the
memory what the stack machine does.

The longer sequences are put together from the shorter ones along `placed_append`. The only loop
is the one that clears the locals of a function: `D` counts down while zeros are pushed
(`reaches_localsEnd`). -/

namespace HackVm

/-! ## Symbols of reserved cells -/

namespace Symbols.Standard

variable {σ : Symbols}

theorem stackPointer (hσ : σ.Standard) : σ Memory.stackPointer = Cell.stackPointer :=
  hσ ("SP", 0) (by decide)

theorem base (hσ : σ.Standard) (b : Base) : σ b.symbol = b.cell := by
  cases b
  · exact hσ ("LCL", 1) (by decide)
  · exact hσ ("ARG", 2) (by decide)
  · exact hσ ("THIS", 3) (by decide)
  · exact hσ ("THAT", 4) (by decide)

theorem scratchAddress (hσ : σ.Standard) : σ Memory.scratchAddress = Cell.scratchAddress :=
  hσ ("R13", 13) (by decide)

theorem scratchFrame (hσ : σ.Standard) : σ Memory.scratchFrame = Cell.scratchFrame :=
  hσ ("R13", 13) (by decide)

theorem scratchReturn (hσ : σ.Standard) : σ Memory.scratchReturn = Cell.scratchReturn :=
  hσ ("R14", 14) (by decide)

end Symbols.Standard

namespace Sequence

variable {σ : Symbols} {rom : Rom} {i : Nat} {m : Ram}

/-! ## The stack -/

theorem follow_pushD (hσ : σ.Standard) (s : Cpu) (hm : s.ram.HasWords 0) :
    (s.follow σ pushD).ram = s.ram.push s.d := by
  have hne : s.ram.sp ≠ Cell.stackPointer := hm.sp_isFree.ne (by decide)
  simp only [pushD, atStackPointer, Cpu.follow_cons, Cpu.follow_nil, Cpu.pass_symbol,
    Cpu.pass_toA, Cpu.pass_toM, Computation.eval_copy, Computation.eval_succ, Register.read_m,
    Register.read_d, hσ.stackPointer, Ram.apply_stackPointer]
  rw [Ram.sp_set _ hne]
  rfl

theorem follow_popD (hσ : σ.Standard) (s : Cpu) (hm : s.ram.HasWords 1) :
    s.follow σ popD =
      { a := s.ram.sp - 1, d := s.ram.pop.1, pc := s.pc + 3, ram := s.ram.pop.2 } := by
  have hne : s.ram.sp - 1 ≠ Cell.stackPointer := (hm.isFree 1 (Nat.le_refl _)).ne (by decide)
  simp only [popD, atStackPointer, Cpu.follow_cons, Cpu.follow_nil, Cpu.pass_symbol,
    Cpu.pass_toAM, Cpu.pass_toD, Computation.eval_copy, Computation.eval_pred, Register.read_m,
    hσ.stackPointer]
  congr 1
  exact Ram.set_of_ne _ _ hne

/-! ## Computing -/

/-- Replaces the top word by what `c` makes of it. -/
theorem leads_unary (hσ : σ.Standard) {c : Computation} (h : Placed σ rom i (unary c))
    (f : Word16 → Word16) (hf : ∀ s : Cpu, c.eval s = f (s.ram s.a)) (hm : m.HasWords 1) :
    Leads rom i m (i + codeSize (unary c)) (m.unary f) := by
  refine leads_of_straight (by simp [unary, atStackPointer]) h fun a d => ?_
  simp only [unary, atStackPointer, Cpu.follow_cons, Cpu.follow_nil, Cpu.pass_symbol,
    Cpu.pass_toA, Cpu.pass_toM, Computation.eval_pred, Register.read_m, hσ.stackPointer, hf]
  exact (Ram.push_pop hm _).symm

theorem leads_binary (hσ : σ.Standard) {op : BinaryOp} (h : Placed σ rom i (binary op))
    (hm : m.HasWords 2) :
    Leads rom i m (i + codeSize (binary op)) (m.binary fun x y => op.eval x y) := by
  refine leads_of_straight (by simp [binary, popD, atStackPointer]) h fun a d => ?_
  rw [binary, Cpu.follow_append, follow_popD hσ _ (hm.le (by decide))]
  simp only [Cpu.follow_cons, Cpu.follow_nil, Cpu.pass_toA, Cpu.pass_toM, Computation.eval_pred,
    Computation.eval_withD, Register.read_a, Source.read_m]
  exact (Ram.push_pop (m := m.pop.2) hm.pop _).symm

/-! ## Pushing and popping -/

theorem leads_pushConstant (hσ : σ.Standard) {n : Int} (h : Placed σ rom i (pushConstant n))
    (hm : m.HasWords 0) :
    Leads rom i m (i + codeSize (pushConstant n)) (m.push (BitVec.ofInt 16 n)) := by
  refine leads_of_straight (by simp [pushConstant, pushD, atStackPointer]) h fun a d => ?_
  rw [pushConstant, Cpu.follow_append, follow_pushD hσ _ hm]
  rfl

theorem leads_pushCell (hσ : σ.Standard) {x : String} (h : Placed σ rom i (pushCell x))
    (hm : m.HasWords 0) : Leads rom i m (i + codeSize (pushCell x)) (m.push (m (σ x))) := by
  refine leads_of_straight (by simp [pushCell, pushD, atStackPointer]) h fun a d => ?_
  rw [pushCell, Cpu.follow_append, follow_pushD hσ _ hm]
  rfl

theorem leads_pushBased (hσ : σ.Standard) {b : Base} {n : Int}
    (h : Placed σ rom i (pushBased b n)) (hm : m.HasWords 0) :
    Leads rom i m (i + codeSize (pushBased b n))
      (m.push (m (m b.cell + BitVec.ofInt 16 n))) := by
  refine leads_of_straight (by simp [pushBased, pushD, atStackPointer]) h fun a d => ?_
  rw [pushBased, Cpu.follow_append, follow_pushD hσ _ hm]
  simp only [Cpu.follow_cons, Cpu.follow_nil, Cpu.pass_symbol, Cpu.pass_number, Cpu.pass_toA,
    Cpu.pass_toD, Computation.eval_copy, Computation.eval_dWith, Register.read_m, Source.read_a,
    hσ.base]
  rfl

theorem leads_popCell (hσ : σ.Standard) {x : String} (h : Placed σ rom i (popCell x))
    (hm : m.HasWords 1) : Leads rom i m (i + codeSize (popCell x)) (m.popTo (σ x)) := by
  refine leads_of_straight (by simp [popCell, popD, atStackPointer]) h fun a d => ?_
  rw [popCell, Cpu.follow_append, follow_popD hσ _ hm]
  rfl

theorem leads_popBased (hσ : σ.Standard) {b : Base} {n : Int}
    (h : Placed σ rom i (popBased b n)) (hm : m.HasWords 1) :
    Leads rom i m (i + codeSize (popBased b n)) (m.popBased b (BitVec.ofInt 16 n)) := by
  refine leads_of_straight (by simp [popBased, popD, atStackPointer]) h fun a d => ?_
  have hscratch : Cell.scratchAddress ≠ Cell.stackPointer := by decide
  rw [popBased, Cpu.follow_append, Cpu.follow_append]
  simp only [Cpu.follow_cons, Cpu.follow_nil, Cpu.pass_symbol, Cpu.pass_number, Cpu.pass_toD,
    Cpu.pass_toM, Computation.eval_copy, Computation.eval_dWith, Register.read_m,
    Register.read_d, Source.read_a, hσ.base, hσ.scratchAddress]
  rw [follow_popD hσ _ (hm.set _ hscratch)]
  simp only [Cpu.pass_toA, Computation.eval_copy, Register.read_m]
  rw [Ram.pop_apply hscratch, Ram.set_self]
  rfl

/-! ## Comparing -/

/-- The part of a comparison before its jump. -/
def comparisonTest (label : String) : List Line :=
  popD ++ [.assign .toA (.pred .a), .assign .toD (.withD .m .sub), .assign .toM .minusOne,
    .symbol label]

/-- The part of a comparison that its jump skips. -/
def comparisonClear : List Line :=
  [atStackPointer, .assign .toA (.pred .m), .assign .toM .zero]

theorem comparison_eq (condition : Jump) (label : String) :
    comparison condition label =
      (comparisonTest label ++ [.jump (.copy .d) condition]) ++
        (comparisonClear ++ [.label label]) := rfl

theorem follow_comparisonTest (hσ : σ.Standard) (s : Cpu) (label : String)
    (hm : s.ram.HasWords 2) :
    let t := s.follow σ (comparisonTest label)
    t.a = σ label ∧ t.d = s.ram.pop.2.pop.1 - s.ram.pop.1 ∧
      t.ram = s.ram.pop.2.set (s.ram.pop.2.sp - 1) (-1) := by
  intro t
  have ht : t = s.follow σ (comparisonTest label) := rfl
  rw [comparisonTest, Cpu.follow_append, follow_popD hσ _ (hm.le (by decide))] at ht
  simp only [Cpu.follow_cons, Cpu.follow_nil, Cpu.pass_symbol, Cpu.pass_toA, Cpu.pass_toD,
    Cpu.pass_toM, Computation.eval_pred, Computation.eval_withD, Computation.eval_minusOne,
    Register.read_a, Source.read_m] at ht
  rw [ht]
  exact ⟨rfl, rfl, rfl⟩

/-- Replaces the two top words by whether their difference meets the condition. -/
theorem leads_comparison (hσ : σ.Standard) {condition : Jump} {label : String}
    (h : Placed σ rom i (comparison condition label)) (hm : m.HasWords 2) :
    Leads rom i m (i + codeSize (comparison condition label))
      (m.binary fun x y => Ram.truth (condition.taken (x - y))) := by
  have hcell : m.pop.2.sp - 1 ≠ Cell.stackPointer :=
    (hm.pop.isFree 1 (Nat.le_refl _)).ne (by decide)
  have hbinary : ∀ w, m.pop.2.set (m.pop.2.sp - 1) w = m.pop.2.pop.2.push w :=
    fun w => (Ram.push_pop hm.pop w).symm
  rw [comparison_eq] at h
  obtain ⟨htest, hrest⟩ := placed_append.mp h
  obtain ⟨hclear, hlabel⟩ := placed_append.mp hrest
  have htestSize : codeSize (comparisonTest label ++ [.jump (.copy .d) condition]) =
      codeSize (comparisonTest label) + 1 := by simp
  have hsize : codeSize (comparison condition label) =
      codeSize (comparisonTest label) + 1 + codeSize comparisonClear := by
    rw [comparison_eq, codeSize_append, htestSize]
    simp
  rw [htestSize, ← Nat.add_assoc] at hclear hlabel
  rw [hsize, ← Nat.add_assoc, ← Nat.add_assoc]
  have straight : ∀ line ∈ comparisonTest label, line.IsStraight := by
    simp [comparisonTest, popD, atStackPointer]
  cases htaken : condition.taken (m.pop.2.pop.1 - m.pop.1) with
  | true =>
    -- the jump skips the part that would clear the word again
    refine leads_of_jump straight htest fun a d => ?_
    obtain ⟨ha, hd, hram⟩ := follow_comparisonTest hσ ⟨a, d, i, m⟩ label hm
    refine ⟨?_, ?_, ?_⟩
    · rw [Computation.eval_copy, Register.read_d, hd]
      exact htaken
    · rw [ha]
      exact hlabel.label
    · rw [hram, hbinary, Ram.binary, htaken]
      rfl
  | false =>
    have hfirst : Leads rom i m (i + codeSize (comparisonTest label) + 1)
        (m.pop.2.set (m.pop.2.sp - 1) (-1)) := by
      refine leads_of_fall straight htest fun a d => ?_
      obtain ⟨-, hd, hram⟩ := follow_comparisonTest hσ ⟨a, d, i, m⟩ label hm
      refine ⟨?_, hram⟩
      rw [Computation.eval_copy, Register.read_d, hd]
      exact htaken
    have hsecond : Leads rom (i + codeSize (comparisonTest label) + 1)
        (m.pop.2.set (m.pop.2.sp - 1) (-1))
        (i + codeSize (comparisonTest label) + 1 + codeSize comparisonClear)
        (m.binary fun x y => Ram.truth (condition.taken (x - y))) := by
      refine leads_of_straight (by simp [comparisonClear, atStackPointer]) hclear fun a d => ?_
      simp only [comparisonClear, atStackPointer, Cpu.follow_cons, Cpu.follow_nil,
        Cpu.pass_symbol, Cpu.pass_toA, Cpu.pass_toM, Computation.eval_pred,
        Computation.eval_zero, Register.read_m, hσ.stackPointer, Ram.apply_stackPointer]
      rw [Ram.sp_set _ hcell, Ram.set_set, hbinary, Ram.binary, htaken]
      rfl
    exact hfirst.trans hsecond

/-! ## Program flow -/

theorem goto_eq (name : String) : goto name = [.symbol name] ++ [.jump .zero .always] := rfl

theorem ifGoto_eq (name : String) :
    ifGoto name = (popD ++ [.symbol name]) ++ [.jump (.copy .d) .ne] := rfl

theorem leads_goto {name : String} (h : Placed σ rom i (goto name)) :
    Leads rom i m (σ name).toNat m := by
  rw [goto_eq] at h
  exact leads_of_jump (by simp) h fun _ _ => ⟨rfl, rfl, rfl⟩

theorem leads_ifGoto (hσ : σ.Standard) {name : String} (h : Placed σ rom i (ifGoto name))
    (hm : m.HasWords 1) :
    Leads rom i m (if m.pop.1 = 0 then i + codeSize (ifGoto name) else (σ name).toNat)
      m.pop.2 := by
  have straight : ∀ line ∈ popD ++ [.symbol name], line.IsStraight := by
    simp [popD, atStackPointer]
  have hfollow : ∀ a d, Cpu.follow σ ⟨a, d, i, m⟩ (popD ++ [.symbol name]) =
      { a := σ name, d := m.pop.1, pc := i + 4, ram := m.pop.2 } := by
    intro a d
    rw [Cpu.follow_append, follow_popD hσ _ hm]
    rfl
  rw [ifGoto_eq] at h
  by_cases hw : m.pop.1 = 0
  · rw [if_pos hw]
    refine leads_of_fall straight h fun a d => ?_
    rw [hfollow]
    exact ⟨Bool.eq_false_iff.mpr fun htaken => Jump.taken_ne_iff.mp htaken hw, rfl⟩
  · rw [if_neg hw]
    refine leads_of_jump straight h fun a d => ?_
    rw [hfollow]
    exact ⟨Jump.taken_ne_iff.mpr hw, rfl, rfl⟩

/-! ## Functions -/

/-- The part of a function's entry that is run for each of its locals. -/
def pushLocal (name : String) : List Line :=
  [.assign .toD (.pred .d), atStackPointer, .assign .toA (.copy .m), .assign .toM .zero,
    atStackPointer, .assign .toM (.succ .m), .symbol (localsLoop name)]

theorem follow_pushLocal (hσ : σ.Standard) (s : Cpu) (name : String) (hm : s.ram.HasWords 0) :
    let t := s.follow σ (pushLocal name)
    t.a = σ (localsLoop name) ∧ t.d = s.d - 1 ∧ t.ram = s.ram.push 0 := by
  have hne : s.ram.sp ≠ Cell.stackPointer := hm.sp_isFree.ne (by decide)
  simp only [pushLocal, atStackPointer, Cpu.follow_cons, Cpu.follow_nil, Cpu.pass_symbol,
    Cpu.pass_toA, Cpu.pass_toD, Cpu.pass_toM, Computation.eval_copy, Computation.eval_pred,
    Computation.eval_succ, Computation.eval_zero, Register.read_d, Register.read_m,
    hσ.stackPointer, Ram.apply_stackPointer]
  rw [Ram.sp_set _ hne]
  exact ⟨trivial, trivial, rfl⟩

/-- The loop of a function's entry, with `k` locals still to clear. The induction is on `k`, which
`D` counts down. -/
theorem reaches_localsEnd (hσ : σ.Standard) {name : String} {k : Nat} {s : Cpu}
    (hloop : (σ (localsLoop name)).toNat = s.pc)
    (htest : Placed σ rom s.pc ([.symbol (localsEnd name)] ++ [.jump (.copy .d) .eq]))
    (hbody : Placed σ rom (s.pc + 2) (pushLocal name ++ [.jump .zero .always]))
    (hd : s.d = BitVec.ofNat 16 k) (hm : s.ram.HasWords 0) (room : s.ram.HasRoom k) :
    ∃ t : Cpu, Cpu.Reaches rom s t ∧ t.pc = (σ (localsEnd name)).toNat ∧
      t.ram = s.ram.pushZeros k := by
  induction k generalizing s with
  | zero =>
    exact ⟨_, Cpu.reaches_jump (by simp) htest (Jump.taken_eq_iff.mpr hd), rfl, rfl⟩
  | succ k ih =>
    have hk : k + 1 < 2 ^ 16 := Nat.lt_of_le_of_lt (Nat.le_add_left _ _) room
    have hne : s.d ≠ 0 := by
      rw [hd]
      intro h0
      have := congrArg BitVec.toNat h0
      rw [BitVec.toNat_ofNat, Nat.mod_eq_of_lt hk] at this
      exact Nat.succ_ne_zero k this
    have hdec : BitVec.ofNat 16 (k + 1) - 1 = BitVec.ofNat 16 k := by
      rw [BitVec.ofNat_add]
      exact BitVec.add_sub_cancel _ _
    -- the test falls through to the body of the loop, and the body jumps back
    have hfall := Cpu.reaches_fall (by simp) htest
      (Bool.eq_false_iff.mpr fun htaken => hne (Jump.taken_eq_iff.mp htaken))
    obtain ⟨ha, hd', hram⟩ :=
      follow_pushLocal hσ ⟨σ (localsEnd name), s.d, s.pc + 2, s.ram⟩ name hm
    have hback := Cpu.reaches_jump (s := ⟨σ (localsEnd name), s.d, s.pc + 2, s.ram⟩)
      (by simp [pushLocal, atStackPointer]) hbody rfl
    rw [ha, hloop] at hback
    have words : (s.ram.push 0).HasWords 0 :=
      (hm.push (room.le (Nat.le_add_left _ _)) 0).le (Nat.zero_le _)
    obtain ⟨t, ht, hpc, hend⟩ := ih (s := { Cpu.follow σ _ (pushLocal name) with pc := s.pc })
      hloop htest hbody (by rw [hd', hd, hdec]) (by rw [hram]; exact words)
      (by rw [hram]; exact room.push 0)
    refine ⟨t, hfall.trans (hback.trans ht), hpc, ?_⟩
    rw [hend, hram]
    rfl

theorem function_tail_eq (name : String) (locals : Int) :
    (function name locals).tail =
      [.number locals, .assign .toD (.copy .a)] ++
        ([.label (localsLoop name)] ++ (([.symbol (localsEnd name)] ++ [.jump (.copy .d) .eq]) ++
          ((pushLocal name ++ [.jump .zero .always]) ++ [.label (localsEnd name)]))) := rfl

theorem codeSize_function (name : String) (locals : Int) :
    codeSize (function name locals) = 12 := by
  simp [function, atStackPointer]

/-- The entry of a function clears its locals and goes on at its end. The label of the function
itself plays no part in this. -/
theorem leads_function_tail (hσ : σ.Standard) {name : String} {k : Nat}
    (h : Placed σ rom i (function name k).tail) (hm : m.HasWords 0) (room : m.HasRoom k) :
    (σ (localsEnd name)).toNat = i + codeSize (function name k) ∧
      Leads rom i m (σ (localsEnd name)).toNat (m.pushZeros k) := by
  have hbodySize : codeSize (pushLocal name ++ [.jump .zero .always]) = 8 := by
    simp [pushLocal, atStackPointer]
  rw [function_tail_eq] at h
  obtain ⟨hentry, hrest⟩ := placed_append.mp h
  obtain ⟨hloop, hrest⟩ := placed_append.mp hrest
  obtain ⟨htest, hrest⟩ := placed_append.mp hrest
  obtain ⟨hbody, hend⟩ := placed_append.mp hrest
  rw [hbodySize] at hend
  simp only [codeSize_append, codeSize_cons, codeSize_nil, Line.size_label, Line.size_number,
    Line.size_assign, Line.size_symbol, Line.size_jump, Nat.add_zero, Nat.reduceAdd,
    Nat.add_assoc] at hloop htest hbody hend
  refine ⟨by rw [codeSize_function]; exact hend.label, ?_⟩
  rintro ⟨a, d, pc, ram⟩ hi hram
  obtain rfl : pc = i := hi
  obtain rfl : ram = m := hram
  obtain ⟨hreach, -⟩ := Cpu.reaches_follow (s := ⟨a, d, pc, ram⟩) (by simp) hentry
  obtain ⟨t, ht, hpc, hram⟩ := reaches_localsEnd hσ (s := ⟨BitVec.ofInt 16 k, _, pc + 2, ram⟩)
    hloop.label htest hbody (BitVec.ofInt_natCast 16 k) hm room
  exact ⟨t, hreach.trans ht, hpc, hram⟩

theorem leads_function (hσ : σ.Standard) {name : String} {k : Nat}
    (h : Placed σ rom i (function name k)) (hm : m.HasWords 0) (room : m.HasRoom k) :
    Leads rom i m (i + codeSize (function name k)) (m.pushZeros k) := by
  obtain ⟨hend, hleads⟩ := leads_function_tail hσ h.tail hm room
  rw [hend] at hleads
  exact hleads

/-! ## Calling -/

/-- The part of a call that pushes the bases of the caller. -/
theorem leads_pushBases (hσ : σ.Standard) {bases : List Base}
    (h : Placed σ rom i (bases.flatMap fun b => pushCell b.symbol)) (hm : m.HasWords 0)
    (room : m.HasRoom bases.length) :
    Leads rom i m (i + codeSize (bases.flatMap fun b => pushCell b.symbol))
      (m.pushBases bases) := by
  induction bases generalizing i m with
  | nil => exact .refl i m
  | cons b bases ih =>
    rw [List.flatMap_cons] at h ⊢
    obtain ⟨hfirst, hrest⟩ := placed_append.mp h
    have words : (m.push (m b.cell)).HasWords 0 :=
      (hm.push (room.le (Nat.le_add_left _ _)) _).le (Nat.zero_le _)
    have hpush := leads_pushCell hσ hfirst hm
    rw [hσ.base] at hpush
    rw [codeSize_append, ← Nat.add_assoc]
    exact hpush.trans (ih hrest words (room.push _))

/-- The part of a call that sets the bases of the called function, and jumps to it. -/
def enterCallee (callee : String) (arguments : Int) : List Line :=
  [atStackPointer, .assign .toD (.copy .m), .number Memory.frameSize,
    .assign .toD (.dWith .sub .a), .number arguments, .assign .toD (.dWith .sub .a),
    .symbol Base.arguments.symbol, .assign .toM (.copy .d),
    atStackPointer, .assign .toD (.copy .m), .symbol Base.locals.symbol, .assign .toM (.copy .d),
    .symbol callee]

theorem call_eq (callee : String) (arguments : Int) (returnAddress : String) :
    call callee arguments returnAddress =
      ([.symbol returnAddress, .assign .toD (.copy .a)] ++ pushD) ++
        ((Base.all.flatMap fun base => pushCell base.symbol) ++
          ((enterCallee callee arguments ++ [.jump .zero .always]) ++ [.label returnAddress])) :=
  rfl

/-- The address that a call returns to is the one behind its code. -/
theorem toNat_returnAddress {callee returnAddress : String} {arguments : Int}
    (h : Placed σ rom i (call callee arguments returnAddress)) :
    (σ returnAddress).toNat = i + codeSize (call callee arguments returnAddress) := by
  rw [call_eq] at h
  obtain ⟨-, hrest⟩ := placed_append.mp h
  obtain ⟨-, hrest⟩ := placed_append.mp hrest
  obtain ⟨-, hlabel⟩ := placed_append.mp hrest
  rw [call_eq, codeSize_append, codeSize_append, codeSize_append, ← Nat.add_assoc,
    ← Nat.add_assoc, ← Nat.add_assoc]
  exact hlabel.label

/-- A call leads to the function that is called, in a frame of its own. The address that it leaves
in the frame is the one behind its code. -/
theorem leads_call (hσ : σ.Standard) {callee returnAddress : String} {arguments : Int}
    (h : Placed σ rom i (call callee arguments returnAddress)) (hm : m.HasWords 0)
    (room : m.HasRoom 5) :
    (σ returnAddress).toNat = i + codeSize (call callee arguments returnAddress) ∧
      Leads rom i m (σ callee).toNat
        (m.enter (σ returnAddress) (BitVec.ofInt 16 arguments)) := by
  refine ⟨toNat_returnAddress h, ?_⟩
  rw [call_eq] at h
  obtain ⟨haddress, hrest⟩ := placed_append.mp h
  obtain ⟨hbases, hrest⟩ := placed_append.mp hrest
  obtain ⟨henter, -⟩ := placed_append.mp hrest
  have hfirst : Leads rom i m (i + codeSize ([.symbol returnAddress,
      .assign .toD (.copy .a)] ++ pushD)) (m.push (σ returnAddress)) := by
    refine leads_of_straight (by simp [pushD, atStackPointer]) haddress fun a d => ?_
    rw [Cpu.follow_append, follow_pushD hσ _ hm]
    rfl
  have words : (m.push (σ returnAddress)).HasWords 0 :=
    (hm.push (room.le (by decide)) _).le (Nat.zero_le _)
  have hsecond := leads_pushBases hσ hbases words (room.push _)
  refine hfirst.trans (hsecond.trans (leads_of_jump (by simp [enterCallee, atStackPointer])
    henter fun a d => ⟨rfl, ?_, ?_⟩))
  · rfl
  · simp only [enterCallee, atStackPointer, Cpu.follow_cons, Cpu.follow_nil, Cpu.pass_symbol,
      Cpu.pass_number, Cpu.pass_toD, Cpu.pass_toM, Computation.eval_copy,
      Computation.eval_dWith, Register.read_d, Register.read_m, Source.read_a,
      hσ.stackPointer, hσ.base, Ram.apply_stackPointer]
    rfl

/-! ## Returning -/

/-- The part of a return that keeps the frame and the return address in scratch cells. -/
def saveFrame : List Line :=
  [.symbol Base.locals.symbol, .assign .toD (.copy .m), .symbol Memory.scratchFrame,
    .assign .toM (.copy .d),
    .number Memory.frameSize, .assign .toA (.dWith .sub .a), .assign .toD (.copy .m),
    .symbol Memory.scratchReturn, .assign .toM (.copy .d)]

/-- The part of a return that gives the top word to the caller. -/
def giveResult : List Line :=
  popD ++ [.symbol Base.arguments.symbol, .assign .toA (.copy .m), .assign .toM (.copy .d),
    .assign .toD (.copy .a), atStackPointer, .assign .toM (.succ .d)]

theorem ret_eq :
    ret = (saveFrame ++ (giveResult ++ (Base.all.reverse.flatMap restore ++
      [.symbol Memory.scratchReturn, .assign .toA (.copy .m)]))) ++ [.jump .zero .always] := rfl

/-- One base is taken from the cell below the frame pointer, which moves down. -/
theorem follow_restore (hσ : σ.Standard) (s : Cpu) (b : Base) {frame below : Word16} {m : Ram}
    (hs : s.ram = m.set Cell.scratchFrame frame) (hbelow : frame - 1 = below)
    (hfree : Cell.IsFree below) :
    (s.follow σ (restore b)).ram = (m.set b.cell (m below)).set Cell.scratchFrame below := by
  have hne : below ≠ Cell.scratchFrame := hfree.ne (by decide)
  simp only [restore, Cpu.follow_cons, Cpu.follow_nil, Cpu.pass_symbol, Cpu.pass_toAM,
    Cpu.pass_toD, Cpu.pass_toM, Computation.eval_copy, Computation.eval_pred, Register.read_d,
    Register.read_m, hσ.scratchFrame, hσ.base, hs]
  rw [Ram.set_self, Ram.set_set, hbelow, Ram.set_of_ne _ _ hne,
    Ram.set_comm _ _ _ b.cell_ne.2.1.symm]

/-- The frame and the return address are read before anything is written over them. -/
theorem follow_saveFrame (hσ : σ.Standard) (s : Cpu) {m : Ram} (hs : s.ram = m)
    (hm : m.HasFrame) :
    (s.follow σ saveFrame).ram =
      (m.set Cell.scratchReturn m.returnAddress).set Cell.scratchFrame (m Base.locals.cell) := by
  have hne : m Base.locals.cell - 5 ≠ Cell.scratchFrame :=
    (hm.isFree 5 (Nat.le_refl _)).ne (by decide)
  have hreturn : m.set Cell.scratchFrame (m Base.locals.cell) (m Base.locals.cell - 5) =
      m.returnAddress := Ram.set_of_ne _ _ hne
  simp only [saveFrame, Cpu.follow_cons, Cpu.follow_nil, Cpu.pass_symbol, Cpu.pass_number,
    Cpu.pass_toA, Cpu.pass_toD, Cpu.pass_toM, Computation.eval_copy, Computation.eval_dWith,
    Register.read_d, Register.read_m, Source.read_a, hσ.base, hσ.scratchFrame,
    hσ.scratchReturn, hs]
  exact (congrArg _ hreturn).trans (Ram.set_comm _ _ _ (by decide))

/-- The top word becomes the top of the caller's stack. -/
theorem follow_giveResult (hσ : σ.Standard) (s : Cpu) {m : Ram} {frame : Word16}
    (hs : s.ram = m.set Cell.scratchFrame frame) (hm : m.HasWords 1)
    (target : Cell.IsFree (m Base.arguments.cell)) :
    (s.follow σ giveResult).ram =
      ((m.popTo (m Base.arguments.cell)).set Cell.stackPointer
        (m Base.arguments.cell + 1)).set Cell.scratchFrame frame := by
  have hscratch : Cell.scratchFrame ≠ m Base.arguments.cell := (target.ne (by decide)).symm
  have hwords : s.ram.HasWords 1 := by
    rw [hs]
    exact hm.set _ (by decide)
  have hpop := Ram.popTo_set hm frame (x := Cell.scratchFrame) (by decide) (by decide) hscratch
  have hbase : s.ram.pop.2 Base.arguments.cell = m Base.arguments.cell := by
    rw [Ram.pop_apply (Base.cell_ne _).1, hs, Ram.set_of_ne _ _ (Base.cell_ne _).2.1]
  rw [giveResult, Cpu.follow_append, follow_popD hσ _ hwords]
  simp only [Cpu.follow_cons, Cpu.follow_nil, Cpu.pass_symbol, Cpu.pass_toA, Cpu.pass_toD,
    Cpu.pass_toM, Computation.eval_copy, Computation.eval_succ, Register.read_a,
    Register.read_d, Register.read_m, hσ.base, hσ.stackPointer, hbase, atStackPointer]
  rw [Ram.set_comm _ _ _ (x := Cell.stackPointer) (by decide), ← hpop, ← hs]
  rfl

/-- The code of a return before its jump does to the memory what leaving a function does. -/
theorem follow_ret (hσ : σ.Standard) (s : Cpu) {m : Ram} (hs : s.ram = m) (hm : m.HasFrame) :
    ((((s.follow σ saveFrame).follow σ giveResult).follow σ
      (Base.all.reverse.flatMap restore)).ram) = m.leave := by
  have hsub : ∀ k l : Word16, m Base.locals.cell - k - l = m Base.locals.cell - (k + l) :=
    BitVec.sub_sub _
  have hcode : Base.all.reverse.flatMap restore =
      restore .that ++ (restore .this ++ (restore .arguments ++ restore .locals)) := by
    simp [Base.all]
  have hbase : m.set Cell.scratchReturn m.returnAddress Base.arguments.cell =
      m Base.arguments.cell := Ram.set_of_ne _ _ (Base.cell_ne _).2.2
  have htarget : Cell.IsFree (m.set Cell.scratchReturn m.returnAddress Base.arguments.cell) := by
    rw [hbase]
    exact hm.target
  have hsave := follow_saveFrame hσ s hs hm
  have hgive := follow_giveResult hσ _ hsave (hm.words.set _ (by decide)) htarget
  rw [hbase] at hgive
  have hthat := follow_restore hσ _ .that hgive rfl (hm.isFree 1 (by decide))
  have hthis := follow_restore hσ _ .this hthat (hsub 1 1) (hm.isFree 2 (by decide))
  have harguments := follow_restore hσ _ .arguments hthis (hsub 2 1) (hm.isFree 3 (by decide))
  have hlocals := follow_restore hσ _ .locals harguments (hsub 3 1) (hm.isFree 4 (by decide))
  rw [hcode, Cpu.follow_append, Cpu.follow_append, Cpu.follow_append, hlocals]
  rfl

/-- Leaving a function gives its result to the caller, and goes back behind the call. -/
theorem leads_ret (hσ : σ.Standard) (h : Placed σ rom i ret) (hm : m.HasFrame) :
    Leads rom i m m.returnAddress.toNat m.leave := by
  have straight : ∀ line ∈ saveFrame ++ (giveResult ++ (Base.all.reverse.flatMap restore ++
      [.symbol Memory.scratchReturn, .assign .toA (.copy .m)])), line.IsStraight := by
    simp [saveFrame, giveResult, restore, popD, atStackPointer, Base.all]
  rw [ret_eq] at h
  refine leads_of_jump straight h fun a d => ⟨rfl, ?_, ?_⟩
  · simp only [Cpu.follow_append, Cpu.follow_cons, Cpu.follow_nil, Cpu.pass_symbol,
      Cpu.pass_toA, Computation.eval_copy, Register.read_m, hσ.scratchReturn]
    rw [follow_ret hσ _ rfl hm, Ram.leave_scratchReturn hm]
  · simp only [Cpu.follow_append, Cpu.follow_cons, Cpu.follow_nil, Cpu.pass_symbol,
      Cpu.pass_toA]
    exact follow_ret hσ _ rfl hm

end Sequence

end HackVm
