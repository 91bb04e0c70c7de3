import HackVm.Proofs.Program.StraightLine

set_option autoImplicit false

/-! # What comparisons decide

The code of a comparison looks at one word only, the difference of the two words that are
compared, and the difference wraps around. Equality is decided by it in any case. The signed order
is decided as long as the exact difference is itself a signed word (`DiffersWithin`); beyond that
the difference wraps to the other side of zero and the answer is the opposite one
(`holds_toInt_sub_of_not_differsWithin`). -/

namespace HackVm

/-! ## Signed words -/

namespace Operation

/-- Whether a comparison holds of two numbers. -/
def holds : Operation → Int → Int → Bool
  | .eq, a, b => decide (a = b)
  | .gt, a, b => decide (b < a)
  | .lt, a, b => decide (a < b)
  | _, _, _ => false

end Operation

/-- The exact difference of two signed words is a signed word. -/
def DiffersWithin (x y : Word16) : Prop :=
  -2 ^ 15 ≤ x.toInt - y.toInt ∧ x.toInt - y.toInt < 2 ^ 15

instance (x y : Word16) : Decidable (DiffersWithin x y) := inferInstanceAs (Decidable (_ ∧ _))

/-- The difference of two words is the exact one, or it lies on the other side of zero. -/
theorem toInt_sub_cases (x y : Word16) :
    (DiffersWithin x y ∧ (x - y).toInt = x.toInt - y.toInt) ∨
      (2 ^ 15 ≤ x.toInt - y.toInt ∧ (x - y).toInt = x.toInt - y.toInt - 2 ^ 16) ∨
      (x.toInt - y.toInt < -2 ^ 15 ∧ (x - y).toInt = x.toInt - y.toInt + 2 ^ 16) := by
  have hx := x.toInt_lt
  have hx' := x.le_toInt
  have hy := y.toInt_lt
  have hy' := y.le_toInt
  rw [BitVec.toInt_sub, Int.bmod_def, DiffersWithin]
  split <;> omega

section

variable {op : Operation} {x y : Word16}

/-- Comparing the difference with zero compares the words, if the difference is exact. -/
theorem holds_toInt_sub_of_differsWithin (h : DiffersWithin x y) :
    op.holds (x - y).toInt 0 = op.holds x.toInt y.toInt := by
  have hsub : (x - y).toInt = x.toInt - y.toInt := by
    rcases toInt_sub_cases x y with ⟨-, hsub⟩ | ⟨hlow, -⟩ | ⟨hhigh, -⟩
    · exact hsub
    · exact absurd h.2 (not_lt.mpr hlow)
    · exact absurd h.1 (not_le.mpr hhigh)
  rw [hsub]
  cases op with
  | eq | gt | lt =>
    refine decide_eq_decide.mpr ?_
    omega
  | _ => rfl

/-- Comparing the difference with zero compares the words the other way round, if the difference
is not exact. -/
theorem holds_toInt_sub_of_not_differsWithin (h : ¬ DiffersWithin x y) :
    op.holds (x - y).toInt 0 = op.holds y.toInt x.toInt := by
  have hx := x.toInt_lt
  have hx' := x.le_toInt
  have hy := y.toInt_lt
  have hy' := y.le_toInt
  have hsub := (toInt_sub_cases x y).resolve_left fun hwithin => h hwithin.1
  cases op with
  | eq | gt | lt =>
    refine decide_eq_decide.mpr ?_
    omega
  | _ => rfl

theorem toInt_eq_zero_iff {w : Word16} : w.toInt = 0 ↔ w = 0 := by
  rw [← BitVec.toInt_inj]
  rfl

/-- The difference is zero for equal words only. -/
theorem holds_eq_sub_iff : Operation.eq.holds (x - y).toInt 0 = true ↔ x = y := by
  rw [Operation.holds, decide_eq_true_iff, toInt_eq_zero_iff]
  exact sub_eq_zero

/-- Just one of the comparisons holds of a number and zero. -/
theorem existsUnique_holds (a : Int) : ∃! op : Operation, op.holds a 0 = true := by
  have hunique : ∀ {o op : Operation}, o.holds a 0 = true → op.holds a 0 = true → o = op := by
    intro o op ho hop
    cases o <;> cases op <;> simp [Operation.holds] at ho hop <;> first | rfl | omega
  rcases lt_trichotomy a 0 with ha | ha | ha
  · exact ⟨.lt, decide_eq_true ha, fun o ho => hunique ho (decide_eq_true ha)⟩
  · exact ⟨.eq, decide_eq_true ha, fun o ho => hunique ho (decide_eq_true ha)⟩
  · exact ⟨.gt, decide_eq_true ha, fun o ho => hunique ho (decide_eq_true ha)⟩

/-- Exchanging the words exchanges less and greater, unless the difference is its own negative. -/
theorem holds_lt_sub_iff :
    Operation.lt.holds (x - y).toInt 0 = Operation.gt.holds (y - x).toInt 0 ↔
      x - y ≠ BitVec.intMin 16 := by
  have hneg : y - x = -(x - y) := by
    rw [BitVec.neg_sub, BitVec.add_comm, BitVec.sub_eq_add_neg]
  rw [hneg]
  generalize x - y = d
  have hd := d.toInt_lt
  have hd' := d.le_toInt
  have hmin : d = BitVec.intMin 16 ↔ d.toInt = -2 ^ 15 := by
    rw [← BitVec.toInt_inj]
    rfl
  rw [Ne, hmin, BitVec.toInt_neg, Int.bmod_def, Operation.holds, Operation.holds, decide_eq_decide]
  split <;> omega

end

/-! ## The code of a comparison -/

variable {g : Generator} {op : Operation} {m : Ram}

theorem Ram.compute_of_isComparison (hop : op.isComparison = true) (m : Ram) :
    m.compute op = m.binary fun x y => truth (op.holds (x - y).toInt 0) := by
  cases op with
  | eq => simp only [compute, Operation.holds, toInt_eq_zero_iff]
  | gt | lt => rfl
  | _ => cases hop

/-- Replacing the two top words by one leaves everything else alone. -/
theorem Ram.binary_apply (hm : m.HasWords 2) (f : Word16 → Word16 → Word16) :
    (m.binary f).sp = m.sp - 1 ∧ m.binary f (m.sp - 2) = f (m (m.sp - 2)) (m (m.sp - 1)) ∧
      ∀ z, z ≠ Cell.stackPointer → z ≠ m.sp - 2 → m.binary f z = m z := by
  have htwo : m.pop.2.sp - 1 = m.sp - 2 := by
    rw [sp_pop, BitVec.sub_sub]
    rfl
  have hcell : m.sp - 2 ≠ Cell.stackPointer := (hm.isFree 2 (Nat.le_refl _)).ne (by decide)
  have hbinary : m.binary f = m.pop.2.set (m.sp - 2) (f (m (m.sp - 2)) (m (m.sp - 1))) := by
    have hbelow : m.pop.2.pop.1 = m (m.sp - 2) := by
      rw [pop, htwo]
      exact pop_apply hcell
    rw [binary, hbelow, push_pop hm.pop, htwo]
    rfl
  rw [hbinary]
  refine ⟨(sp_set _ hcell).trans (sp_pop m), set_self _ _ _, fun z hz hne => ?_⟩
  rw [set_of_ne _ _ hne, pop_apply hz]

/-- The assembled code of a comparison computes it. -/
theorem leads_compute_comparison (hop : op.isComparison = true) (hm : m.HasWords 2) :
    Leads (assemble (g.arithmetic op).1) 0 m (codeSize (g.arithmetic op).1) (m.compute op) := by
  have hwords : m.HasWords op.arity := hm.le (by unfold Operation.arity; split <;> decide)
  have hsize : codeSize (g.arithmetic op).1 < 2 ^ 15 := by
    cases op with
    | eq | gt | lt => exact (by decide : 11 < 2 ^ 15)
    | _ => cases hop
  have hlowered : Lowered g [⟨g.unit, .arithmetic op, (g.arithmetic op).1⟩] :=
    .cons rfl rfl (.nil _)
  have hline : StraightLine [⟨g.unit, .arithmetic op, (g.arithmetic op).1⟩] :=
    ⟨List.forall_mem_singleton.mpr rfl, List.forall_mem_singleton.mpr fun n hn => (by cases hn)⟩
  have hassemblable := hline.assemblable hlowered
  rw [List.flatMap_singleton] at hassemblable
  have hleads := Generator.leads_arithmetic (standard_symbolsOf _)
    (placed_assemble (hassemblable hsize)) hwords
  rwa [Nat.zero_add] at hleads

/-- Running the code of a comparison replaces the two top words `x` and `y` by whether their
difference, as a signed word, compares with zero, and changes nothing else. So it decides the
signed order if the exact difference is a signed word, and the opposite order if not. In any case
one of the three comparisons holds; and `x` is less than `y` just if `y` is greater than `x`, but
for words whose difference is the least signed word. -/
theorem leads_comparison_code (g : Generator) (hop : op.isComparison = true) (hm : m.HasWords 2) :
    let code := (g.arithmetic op).1
    let x := m (m.sp - 2)
    let y := m (m.sp - 1)
    (∃ m', Leads (assemble code) 0 m (codeSize code) m' ∧ m'.sp = m.sp - 1 ∧
      m' (m.sp - 2) = Ram.truth (op.holds (x - y).toInt 0) ∧
      ∀ z, z ≠ Cell.stackPointer → z ≠ m.sp - 2 → m' z = m z) ∧
    (Operation.eq.holds (x - y).toInt 0 = true ↔ x = y) ∧
    (DiffersWithin x y → op.holds (x - y).toInt 0 = op.holds x.toInt y.toInt) ∧
    (¬ DiffersWithin x y → op.holds (x - y).toInt 0 = op.holds y.toInt x.toInt) ∧
    (∃! o : Operation, o.holds (x - y).toInt 0 = true) ∧
    (Operation.lt.holds (x - y).toInt 0 = Operation.gt.holds (y - x).toInt 0 ↔
      x - y ≠ BitVec.intMin 16) := by
  intro code x y
  obtain ⟨hsp, hcell, hothers⟩ :=
    Ram.binary_apply hm fun x y => Ram.truth (op.holds (x - y).toInt 0)
  have hleads := leads_compute_comparison (g := g) hop hm
  rw [Ram.compute_of_isComparison hop] at hleads
  exact ⟨⟨_, hleads, hsp, hcell, hothers⟩, holds_eq_sub_iff, holds_toInt_sub_of_differsWithin,
    holds_toInt_sub_of_not_differsWithin, existsUnique_holds _, holds_lt_sub_iff⟩

/-- A memory with two words on the stack. -/
def twoWords (x y : Word16) : Ram := fun z =>
  if z = Cell.stackPointer then 258 else if z = 256 then x else if z = 257 then y else 0

/-- A negative number is found less than a positive one. -/
theorem leads_comparison_code_lt :
    let g := Generator.enter .unit "Main"
    ∃ m', Leads (assemble (g.arithmetic .lt).1) 0 (twoWords (-3) 2)
        (codeSize (g.arithmetic .lt).1) m' ∧ m'.sp = 257 ∧ m' 256 = -1 := by
  intro g
  obtain ⟨⟨m', hleads, hsp, hcell, -⟩, -, hwithin, -⟩ :=
    @leads_comparison_code .lt (twoWords (-3) 2) g rfl (by decide)
  have hholds := hwithin (by decide)
  refine ⟨m', hleads, hsp, hcell.trans ?_⟩
  rw [hholds]
  decide

/-- The largest number is not found greater than `-1`. And the least number is found less than
zero, but zero is not found greater than it. -/
theorem leads_comparison_code_wrapped :
    let g := Generator.enter .unit "Main"
    (∃ m', Leads (assemble (g.arithmetic .gt).1) 0 (twoWords 32767 (-1))
        (codeSize (g.arithmetic .gt).1) m' ∧ m' 256 = 0 ∧
      (-1 : Word16).toInt < (32767 : Word16).toInt) ∧
    (∃ m', Leads (assemble (g.arithmetic .lt).1) 0 (twoWords (-32768) 0)
        (codeSize (g.arithmetic .lt).1) m' ∧ m' 256 = -1) ∧
    ∃ m', Leads (assemble (g.arithmetic .gt).1) 0 (twoWords 0 (-32768))
        (codeSize (g.arithmetic .gt).1) m' ∧ m' 256 = 0 := by
  intro g
  exact ⟨⟨_, leads_compute_comparison rfl (by decide), by decide, by decide⟩,
    ⟨_, leads_compute_comparison rfl (by decide), by decide⟩,
    ⟨_, leads_compute_comparison rfl (by decide), by decide⟩⟩

end HackVm
