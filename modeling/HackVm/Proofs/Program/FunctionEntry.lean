import HackVm.Proofs.Program.Inventions
import HackVm.Proofs.Program.Output
import HackVm.Proofs.Lowering.Effects
import HackVm.Proofs.StackMachine.Frame

set_option autoImplicit false

/-! # The entry of a function

A function begins with a loop that pushes a zero for each of its locals. Pushing zeros clears the
cells from the stack pointer on, moves the stack pointer behind them, and leaves every other cell
alone (`Ram.clears_pushZeros`), so the entry does that too.

The loop refers to the stack pointer and to two labels of its own, never to the label of the
function. So the code does its work alone, as a program that ends behind it, whatever the name of
the function is (`placed_assemble_function`), even if it is the name of a register. -/

namespace HackVm

/-! ## Pushing zeros -/

namespace Ram

/-- From `m` to `m'` the `k` cells above the stack are cleared and belong to the stack now; all
other cells stay as they are. -/
structure Clears (m : Ram) (k : Nat) (m' : Ram) : Prop where
  sp : m'.sp.toNat = m.sp.toNat + k
  cleared : ∀ x : Word16, m.sp.toNat ≤ x.toNat → x.toNat < m.sp.toNat + k → m' x = 0
  others : ∀ x : Word16, x ≠ Cell.stackPointer →
    ¬ (m.sp.toNat ≤ x.toNat ∧ x.toNat < m.sp.toNat + k) → m' x = m x

/-- The induction is on the number of zeros: the first goes into the cell at the stack pointer, and
the others leave that cell alone. -/
theorem clears_pushZeros {m : Ram} {k : Nat} (hm : m.HasWords 0) (room : m.HasRoom k) :
    m.Clears k (m.pushZeros k) := by
  induction k generalizing m with
  | zero =>
    exact ⟨rfl, fun x hlow hhigh => absurd hlow (Nat.not_le.mpr hhigh), fun _ _ _ => rfl⟩
  | succ k ih =>
    have hone : m.HasRoom 1 := room.le (Nat.le_add_left 1 k)
    have hsp : (m.push 0).sp.toNat = m.sp.toNat + 1 := by
      rw [sp_push]
      exact hone.toNat_add
    obtain ⟨hend, hcleared, hothers⟩ :=
      ih ((hm.push hone 0).le (Nat.zero_le 1)) (room.push 0)
    rw [hsp, Nat.add_assoc, Nat.add_comm 1 k] at hend hcleared hothers
    refine ⟨hend, fun x hlow hhigh => ?_, fun x hx hout => ?_⟩
    · rcases Nat.eq_or_lt_of_le hlow with heq | hlt
      · obtain rfl : m.sp = x := BitVec.eq_of_toNat_eq heq
        have hfree : m.sp ≠ Cell.stackPointer := hm.sp_isFree.ne (by decide)
        exact (hothers m.sp hfree fun h => Nat.not_succ_le_self _ h.1).trans (push_apply_sp hm 0)
      · exact hcleared x hlt hhigh
    · have hne : x ≠ m.sp := by
        rintro rfl
        exact hout ⟨Nat.le_refl _, Nat.lt_add_of_pos_right (Nat.succ_pos k)⟩
      rw [pushZeros, hothers x hx fun h => hout ⟨(Nat.le_succ _).trans h.1, h.2⟩]
      exact push_apply 0 hx hne

end Ram

namespace Sequence

/-! ## The entry alone -/

/-- The part of a function's entry before the label that ends it. -/
def untilLocalsEnd (name : String) (locals : Int) : List Line :=
  [.label name, .number locals, .assign .toD (.copy .a), .label (localsLoop name),
    .symbol (localsEnd name), .jump (.copy .d) .eq] ++ (pushLocal name ++ [.jump .zero .always])

theorem function_eq_untilLocalsEnd (name : String) (locals : Int) :
    function name locals = untilLocalsEnd name locals ++ .label (localsEnd name) :: [] := rfl

theorem labelsOf_function (name : String) (locals : Int) :
    labelsOf (function name locals) = [name, localsLoop name, localsEnd name] := rfl

theorem nodup_labelsOf_function (name : String) (locals : Int) :
    (labelsOf (function name locals)).Nodup := by
  have hdiffer : localsLoop name ≠ localsEnd name := by
    intro h
    have hlist := congrArg String.toList h
    rw [localsLoop, localsEnd, String.toList_append, String.toList_append] at hlist
    exact absurd (List.append_cancel_left hlist) (by decide)
  rw [labelsOf_function]
  simp [(localsLoop_ne name).symm, (localsEnd_ne name).symm, hdiffer]

theorem not_predefined_localsLoop (name : String) :
    localsLoop name ∉ predefinedSymbols.map Prod.fst :=
  not_predefined_of_mark (by simp [localsLoop])

theorem not_predefined_localsEnd (name : String) :
    localsEnd name ∉ predefinedSymbols.map Prod.fst :=
  not_predefined_of_mark (by simp [localsEnd])

theorem symbolsOf_localsLoop (name : String) (locals : Int) :
    (symbolsOf (function name locals) (localsLoop name)).toNat = 2 := by
  have hnot : localsLoop name ∉ labelsOf [.label name, .number locals, .assign .toD (.copy .a)] :=
    by simpa [labelsOf, Line.defines?, Line.assign] using localsLoop_ne name
  have hfirst : address? (localsLoop name) (function name locals) = some 2 :=
    address?_of_not_mem hnot _
  rw [symbolsOf, lookup_eq_none_of_not_mem (not_predefined_localsLoop name), hfirst]
  rfl

theorem symbolsOf_localsEnd (name : String) (locals : Int) :
    (symbolsOf (function name locals) (localsEnd name)).toNat = 12 := by
  have hnodup := nodup_labelsOf_function name locals
  have hsize : codeSize (untilLocalsEnd name locals) = 12 := by
    simp [untilLocalsEnd, pushLocal, atStackPointer]
  rw [function_eq_untilLocalsEnd] at hnodup ⊢
  rw [labelsOf_append] at hnodup
  have hnot : localsEnd name ∉ labelsOf (untilLocalsEnd name locals) := fun h =>
    List.disjoint_of_nodup_append hnodup h (by simp [labelsOf, Line.defines?])
  rw [symbolsOf, lookup_eq_none_of_not_mem (not_predefined_localsEnd name),
    address?_of_not_mem hnot [], hsize]
  rfl

/-- Behind its first line, the entry of a function stands in its own assembled form. -/
theorem placed_assemble_function (name : String) (locals : Int) :
    Placed (symbolsOf (function name locals)) (assemble (function name locals)) 0
      (function name locals).tail := by
  have hloop := symbolsOf_localsLoop name locals
  have hend := symbolsOf_localsEnd name locals
  rw [assemble]
  generalize symbolsOf (function name locals) = σ at hloop hend ⊢
  simp [function, atStackPointer, Placed, List.filterMap_cons, Line.instruction?, Line.assign,
    Line.jump, Line.size, hloop, hend]

/-- An assembler accepts the entry of a function if its name is not predefined. -/
theorem assemblable_function {name : String} {k : Nat} (hk : k < 2 ^ 15)
    (hname : name ∉ predefinedSymbols.map Prod.fst) : Assemblable (function name k) where
  nodup := nodup_labelsOf_function name k
  fresh := by
    simp only [labelsOf_function, List.forall_mem_cons]
    exact ⟨hname, not_predefined_localsLoop name, not_predefined_localsEnd name,
      List.forall_mem_nil _⟩
  numbers := by
    intro n hn
    obtain rfl : n = k := by simpa [function, atStackPointer, Line.assign, Line.jump] using hn
    exact ⟨Int.natCast_nonneg k, Int.ofNat_lt.mpr hk⟩
  size := by
    rw [codeSize_function]
    decide

end Sequence

/-! ## The code of a function -/

/-- A function has code in every generator, and the code clears its locals. Wherever it stands in a
program memory, the processor comes from the label of the function to the label that ends the
entry, with the `k` cells above the stack cleared and all other cells as they were, whatever the
registers hold. The code alone does this too, under any name, and there the processor stops. -/
theorem function_code_clears_locals (g : Generator) (name : String) (k : Nat) :
    ∃ body, g.lower (.function name k) = .ok (body, g) ∧
      (∀ (σ : Symbols) (rom : Rom) (i : Nat) (m : Ram), σ.Standard → Placed σ rom i body →
        16 ≤ m.sp.toNat → m.sp.toNat + k ≤ 65535 →
        (σ name).toNat = i ∧ (σ (Sequence.localsEnd name)).toNat = i + codeSize body ∧
        ∃ m', Leads rom i m (σ (Sequence.localsEnd name)).toNat m' ∧ m.Clears k m') ∧
      (k ≤ 32767 →
        (IsSymbol name → readLines (body.map fun line => line.text.toList) = some body) ∧
        (name ∉ predefinedSymbols.map Prod.fst → Assemblable body) ∧
        ∀ s : Cpu, s.pc = 0 → 16 ≤ s.ram.sp.toNat → s.ram.sp.toNat + k ≤ 65535 →
          ∃ t, Cpu.Reaches (assemble body) s t ∧
            t.pc = (symbolsOf body (Sequence.localsEnd name)).toNat ∧
            t.step (assemble body) = none ∧ s.ram.Clears k t.ram) := by
  refine ⟨Sequence.function name k, rfl, ?_, fun hk => ⟨fun hname => ?_, fun hname => ?_, ?_⟩⟩
  · intro σ rom i m hσ hplaced hlow hhigh
    have room : m.HasRoom k := Nat.lt_succ_of_le hhigh
    obtain ⟨hend, hleads⟩ := Sequence.leads_function_tail hσ hplaced.tail hlow room
    exact ⟨hplaced.label, hend, _, hleads, Ram.clears_pushZeros hlow room⟩
  · have hread := readLines_body (Sequence.readable_function hname (Int.natCast_nonneg k)) []
    rw [List.append_nil] at hread
    rw [hread]
    exact congrArg some (List.append_nil _)
  · exact Sequence.assemblable_function (Nat.lt_succ_of_le hk) hname
  · intro s hpc hlow hhigh
    have room : s.ram.HasRoom k := Nat.lt_succ_of_le hhigh
    obtain ⟨-, hleads⟩ := Sequence.leads_function_tail (standard_symbolsOf _)
      (Sequence.placed_assemble_function name k) hlow room
    obtain ⟨t, hreaches, hend, hram⟩ := hleads s hpc rfl
    refine ⟨t, hreaches, hend, ?_, hram ▸ Ram.clears_pushZeros hlow room⟩
    -- behind its last line the code has no instruction
    have hlength : (assemble (Sequence.function name k)).length = 12 :=
      (length_assemble _ _).trans (Sequence.codeSize_function name k)
    rw [Cpu.step, hend, Sequence.symbolsOf_localsEnd, List.getElem?_eq_none hlength.le]
    rfl

/-- A function that is called like a register clears its three locals, and no more. -/
theorem function_code_clears_locals_named_sp :
    let m : Ram := fun x => if x = Cell.stackPointer then 300 else 7
    ∃ t, Cpu.Reaches (assemble (Sequence.function "SP" 3)) ⟨9, 9, 0, m⟩ t ∧
      t.step (assemble (Sequence.function "SP" 3)) = none ∧
      t.ram.sp.toNat = 303 ∧ t.ram 299 = 7 ∧ t.ram 300 = 0 ∧ t.ram 302 = 0 ∧ t.ram 303 = 7 := by
  intro m
  obtain ⟨body, hbody, -, halone⟩ :=
    function_code_clears_locals (.enter .unit "Main") "SP" 3
  cases hbody
  obtain ⟨-, -, hrun⟩ := halone (by decide)
  obtain ⟨t, hreaches, -, hstep, hclears⟩ := hrun ⟨9, 9, 0, m⟩ rfl (by decide) (by decide)
  exact ⟨t, hreaches, hstep, hclears.sp, hclears.others 299 (by decide) (by decide),
    hclears.cleared 300 (by decide) (by decide), hclears.cleared 302 (by decide) (by decide),
    hclears.others 303 (by decide) (by decide)⟩

end HackVm
