import HackVm.Machine.Memory
import HackVm.Proofs.Machine.Placement
import Mathlib.Algebra.Ring.Int.Defs
import Mathlib.Data.List.Nodup
import Mathlib.Data.Set.Function

set_option autoImplicit false

/-! # Assembling

An assembler gives every symbol a word: the predefined symbols name the reserved cells, a label
stands for the address of the instruction behind it, and every other symbol is a variable, which
gets a cell of its own from 16 on in the order of first use. With that each line becomes an
instruction.

The main statement is `placed_assemble`: a program whose labels are defined once and are not
predefined stands at address 0 of its own assembled form. -/

namespace HackVm

/-! ## Predefined symbols -/

/-- The symbols that every assembler knows. -/
def predefinedSymbols : List (String × Word16) := [
  ("SP", 0), ("LCL", 1), ("ARG", 2), ("THIS", 3), ("THAT", 4), ("SCREEN", 16384), ("KBD", 24576),
  ("R0", 0), ("R1", 1), ("R2", 2), ("R3", 3), ("R4", 4), ("R5", 5), ("R6", 6), ("R7", 7),
  ("R8", 8), ("R9", 9), ("R10", 10), ("R11", 11), ("R12", 12), ("R13", 13), ("R14", 14),
  ("R15", 15)]

/-- The predefined symbols have their meaning. -/
def Symbols.Standard (σ : Symbols) : Prop := ∀ p ∈ predefinedSymbols, σ p.1 = p.2

/-! ## Labels and variables -/

/-- The symbol that a line loads. -/
def Line.references? : Line → Option String
  | .symbol name => some name
  | _ => none

/-- The symbols that a code defines, in order. -/
def labelsOf (code : List Line) : List String := code.filterMap Line.defines?

/-- The symbols that a code loads, in order. -/
def referencesOf (code : List Line) : List String := code.filterMap Line.references?

@[simp] theorem labelsOf_append (xs ys : List Line) :
    labelsOf (xs ++ ys) = labelsOf xs ++ labelsOf ys :=
  List.filterMap_append

/-- The address of the instruction behind the first definition of a label. -/
def address? (name : String) : List Line → Option Nat
  | [] => none
  | line :: code =>
    if line.defines? = some name then some 0 else (address? name code).map (line.size + ·)

/-- The symbols that are neither predefined nor labels, each once, in the order of first use. -/
def variablesOf (code : List Line) : List String :=
  ((referencesOf code).filter fun name =>
    name ∉ predefinedSymbols.map Prod.fst ∧ name ∉ labelsOf code).eraseDups

/-- The cell of the first variable. -/
def firstVariable : Nat := 16

/-- What the symbols of a code stand for. -/
def symbolsOf (code : List Line) : Symbols := fun name =>
  match predefinedSymbols.lookup name with
  | some cell => cell
  | none =>
    match address? name code with
    | some i => BitVec.ofNat 16 i
    | none => BitVec.ofNat 16 (firstVariable + (variablesOf code).idxOf name)

/-- The assembled form of a code. -/
def assemble (code : List Line) : Rom := code.filterMap (Line.instruction? (symbolsOf code))

/-- What an assembler asks of a code: labels are defined once and are not predefined, numbers fit
an instruction, and the program fits the program memory. -/
structure Assemblable (code : List Line) : Prop where
  nodup : (labelsOf code).Nodup
  fresh : ∀ name ∈ labelsOf code, name ∉ predefinedSymbols.map Prod.fst
  numbers : ∀ n, Line.number n ∈ code → 0 ≤ n ∧ n < 2 ^ 15
  size : codeSize code < 2 ^ 15

/-- Whether a number fits an instruction; other lines have none. -/
def Line.numberFits : Line → Bool
  | .number n => decide (0 ≤ n ∧ n < 2 ^ 15)
  | _ => true

instance (code : List Line) : Decidable (Assemblable code) :=
  decidable_of_iff ((labelsOf code).Nodup ∧
      (∀ name ∈ labelsOf code, name ∉ predefinedSymbols.map Prod.fst) ∧
      code.all Line.numberFits = true ∧ codeSize code < 2 ^ 15) <| by
    have hnumbers : code.all Line.numberFits = true ↔
        ∀ n, Line.number n ∈ code → 0 ≤ n ∧ n < 2 ^ 15 := by
      rw [List.all_eq_true]
      refine ⟨fun h n hn => of_decide_eq_true (h _ hn), fun h line hline => ?_⟩
      cases line with
      | number n => exact decide_eq_true (h n hline)
      | _ => rfl
    rw [hnumbers]
    exact ⟨fun h => ⟨h.1, h.2.1, h.2.2.1, h.2.2.2⟩,
      fun h => ⟨h.nodup, h.fresh, h.numbers, h.size⟩⟩

/-! ## What symbols stand for -/

/-- Predefined symbols are distinct, so looking one up finds its own meaning. -/
theorem lookup_predefinedSymbols {p : String × Word16} (h : p ∈ predefinedSymbols) :
    predefinedSymbols.lookup p.1 = some p.2 := by
  revert p
  decide

theorem standard_symbolsOf (code : List Line) : (symbolsOf code).Standard := by
  intro p hp
  rw [symbolsOf, lookup_predefinedSymbols hp]

theorem lookup_eq_none_of_not_mem {name : String} (h : name ∉ predefinedSymbols.map Prod.fst) :
    predefinedSymbols.lookup name = none := by
  rw [List.lookup_eq_none_iff]
  intro p hp
  simp only [bne_iff_ne, ne_eq]
  rintro rfl
  exact h (List.mem_map_of_mem hp)

/-- No predefined symbol has a `$` in it. -/
theorem not_predefined_of_mark {name : String} (h : '$' ∈ name.toList) :
    name ∉ predefinedSymbols.map Prod.fst := by
  have hall : ∀ s ∈ predefinedSymbols.map Prod.fst, '$' ∉ s.toList := by decide
  exact fun hmem => hall name hmem h

/-- A label is found at its first definition. -/
theorem address?_of_not_mem {name : String} {pre : List Line} (h : name ∉ labelsOf pre)
    (post : List Line) : address? name (pre ++ .label name :: post) = some (codeSize pre) := by
  induction pre with
  | nil => simp [address?, Line.defines?]
  | cons line pre ih =>
    have hline : line.defines? ≠ some name := by
      intro hd
      exact h (List.mem_filterMap.mpr ⟨line, List.mem_cons_self, hd⟩)
    have hpre : name ∉ labelsOf pre := by
      intro hmem
      obtain ⟨l, hl, hd⟩ := List.mem_filterMap.mp hmem
      exact h (List.mem_filterMap.mpr ⟨l, List.mem_cons_of_mem _ hl, hd⟩)
    rw [List.cons_append, address?, if_neg hline, ih hpre, codeSize_cons]
    rfl

/-- A label is not defined before. -/
theorem Assemblable.not_mem_labelsOf {pre post : List Line} {name : String}
    (h : Assemblable (pre ++ .label name :: post)) : name ∉ labelsOf pre := by
  have hnodup := h.nodup
  rw [labelsOf_append] at hnodup
  intro hmem
  exact List.disjoint_of_nodup_append hnodup hmem (by simp [labelsOf, Line.defines?])

theorem Assemblable.symbolsOf_label {pre post : List Line} {name : String}
    (h : Assemblable (pre ++ .label name :: post)) :
    (symbolsOf (pre ++ .label name :: post) name).toNat = codeSize pre := by
  have hmem : name ∈ labelsOf (pre ++ .label name :: post) := by
    simp [labelsOf, Line.defines?]
  have hsize := h.size
  rw [codeSize_append] at hsize
  rw [symbolsOf, lookup_eq_none_of_not_mem (h.fresh name hmem),
    address?_of_not_mem h.not_mem_labelsOf]
  exact Nat.mod_eq_of_lt (by omega)

/-- A label has an address and stands for it. -/
theorem Assemblable.exists_address {code : List Line} (h : Assemblable code) {name : String}
    (hname : name ∈ labelsOf code) :
    ∃ i, address? name code = some i ∧ (symbolsOf code name).toNat = i := by
  obtain ⟨line, hline, hdefines⟩ := List.mem_filterMap.mp hname
  obtain ⟨pre, post, rfl⟩ := List.append_of_mem hline
  cases line with
  | label s =>
    obtain rfl := Option.some.inj hdefines
    exact ⟨codeSize pre, address?_of_not_mem h.not_mem_labelsOf post, h.symbolsOf_label⟩
  | _ => cases hdefines

/-! ## Variables -/

theorem length_eraseDups_le (names : List String) : names.eraseDups.length ≤ names.length := by
  -- erasing from the rest leaves no tail of the list, so the induction is on the length
  induction hn : names.length using Nat.strongRecOn generalizing names with
  | ind n ih =>
    cases names with
    | nil => exact Nat.zero_le _
    | cons name rest =>
      have hrest := List.length_filter_le (fun x => !x == name) rest
      have hlt : (rest.filter fun x => !x == name).length < n := by
        rw [← hn, List.length_cons]
        exact Nat.lt_succ_of_le hrest
      rw [List.eraseDups_cons, List.length_cons, ← hn, List.length_cons]
      exact Nat.succ_le_succ ((ih _ hlt _ rfl).trans hrest)

theorem length_referencesOf_le (code : List Line) : (referencesOf code).length ≤ codeSize code := by
  induction code with
  | nil => exact Nat.le_refl _
  | cons line code ih =>
    rw [codeSize_cons]
    cases line <;> simp only [referencesOf, List.filterMap_cons, Line.references?, Line.size,
      List.length_cons] at ih ⊢ <;> omega

theorem length_variablesOf_le (code : List Line) : (variablesOf code).length ≤ codeSize code :=
  (length_eraseDups_le _).trans ((List.length_filter_le ..).trans (length_referencesOf_le code))

theorem address?_of_not_mem_labelsOf {name : String} {code : List Line}
    (h : name ∉ labelsOf code) : address? name code = none := by
  induction code with
  | nil => rfl
  | cons line code ih =>
    have hline : line.defines? ≠ some name := by
      intro hd
      exact h (List.mem_filterMap.mpr ⟨line, List.mem_cons_self, hd⟩)
    have hcode : name ∉ labelsOf code := by
      intro hmem
      obtain ⟨l, hl, hd⟩ := List.mem_filterMap.mp hmem
      exact h (List.mem_filterMap.mpr ⟨l, List.mem_cons_of_mem _ hl, hd⟩)
    rw [address?, if_neg hline, ih hcode]
    rfl

theorem mem_variablesOf_iff {code : List Line} {name : String} :
    name ∈ variablesOf code ↔ name ∈ referencesOf code ∧
      name ∉ predefinedSymbols.map Prod.fst ∧ name ∉ labelsOf code := by
  rw [variablesOf, List.mem_eraseDups, List.mem_filter, decide_eq_true_eq]

/-- A variable has a cell behind the reserved ones. -/
theorem toNat_symbolsOf_variable {code : List Line} {name : String}
    (hsize : codeSize code < 2 ^ 15) (h : name ∈ variablesOf code) :
    (symbolsOf code name).toNat = firstVariable + (variablesOf code).idxOf name := by
  have hidx : (variablesOf code).idxOf name < (variablesOf code).length :=
    List.idxOf_lt_length_of_mem h
  have hlength := length_variablesOf_le code
  have hfresh := (mem_variablesOf_iff.mp h).2
  rw [symbolsOf, lookup_eq_none_of_not_mem hfresh.1, address?_of_not_mem_labelsOf hfresh.2]
  exact Nat.mod_eq_of_lt (by simp only [firstVariable]; omega)

/-- Different variables have different cells. -/
theorem injOn_symbolsOf_variables {code : List Line} (hsize : codeSize code < 2 ^ 15) :
    Set.InjOn (symbolsOf code) { name | name ∈ variablesOf code } := by
  intro x hx y hy hxy
  have hnat := congrArg BitVec.toNat hxy
  rw [toNat_symbolsOf_variable hsize hx, toNat_symbolsOf_variable hsize hy] at hnat
  exact (List.idxOf_inj hx).mp (Nat.add_left_cancel hnat)

/-! ## The assembled program -/

theorem length_assemble (σ : Symbols) (code : List Line) :
    (code.filterMap (Line.instruction? σ)).length = codeSize code := by
  induction code with
  | nil => rfl
  | cons line code ih =>
    rw [codeSize_cons, ← ih]
    cases line <;>
      simp only [List.filterMap_cons, Line.instruction?, Line.size, List.length_cons] <;> omega

/-- The part of a program behind `pre` stands where the instructions of `pre` end. -/
theorem placed_assemble_append (pre post : List Line) (h : Assemblable (pre ++ post)) :
    Placed (symbolsOf (pre ++ post)) (assemble (pre ++ post)) (codeSize pre) post := by
  induction post generalizing pre with
  | nil => trivial
  | cons line post ih =>
    refine ⟨fun i hi => ?_, fun name hname => ?_, ?_⟩
    · rw [assemble, List.filterMap_append, List.filterMap_cons_some hi, ← length_assemble,
        List.getElem?_append_right (Nat.le_refl _), Nat.sub_self]
      rfl
    · subst hname
      exact h.symbolsOf_label
    · have hcode : pre ++ line :: post = (pre ++ [line]) ++ post := by simp
      have hsize : codeSize pre + line.size = codeSize (pre ++ [line]) := by simp
      rw [hcode] at h ⊢
      rw [hsize]
      exact ih (pre ++ [line]) h

/-- A program stands at the start of its assembled form. -/
theorem placed_assemble {code : List Line} (h : Assemblable code) :
    Placed (symbolsOf code) (assemble code) 0 code :=
  placed_assemble_append [] code h

end HackVm
