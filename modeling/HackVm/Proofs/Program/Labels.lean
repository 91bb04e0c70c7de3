import HackVm.Proofs.Program.Inventions
import Mathlib

set_option autoImplicit false

/-! # Labels of whole programs

The code that is made for a command defines the labels that it invents and loads no others, so a
jump of generated code stays in the block it stands in (`SelfContained`). Together with the label
of the bootstrap, whose owner no function can have, the invented labels of a program are all
different (`nodup_invented`). -/

namespace HackVm

/-! ## Where labels are used -/

/-- The symbols of the cells that code sequences work with. -/
def memorySymbols : List String := Memory.stackPointer :: Base.all.map Base.symbol

/-- Every symbol that a code loads is that of a cell, or the function that is called, or a label
that the code defines itself. -/
def SelfContained (callee : Option String) (code : List Line) : Prop :=
  ∀ s ∈ referencesOf code, s ∈ memorySymbols ∨ callee = some s ∨ s ∈ labelsOf code

namespace Command

/-- Whether labels are invented for a command. -/
def getsLabels : Command → Bool
  | .arithmetic op => op.isComparison
  | .function _ _ | .call _ _ _ => true
  | _ => false

/-- The function that a command calls. -/
def callee? : Command → Option String
  | .call callee _ _ => some callee
  | _ => none

end Command

/-- The labels that are invented for a command, by its kind. -/
def Coded.InventsByKind (c : Coded) : Prop :=
  match c.command with
  | .arithmetic op =>
    if op.isComparison then ∃ n : Nat, c.invented = [c.unit ++ "$cmp." ++ toString n]
    else c.invented = []
  | .function name _ => c.invented = [name ++ "$locals.loop", name ++ "$locals.end"]
  | .call _ _ back =>
    c.invented = [back] ∧ ∃ (f : String) (n : Nat), back = f ++ "$ret." ++ toString n
  | _ => c.invented = []

theorem inventsByKind_of_lower {g g' : Generator} {scope scope' : Option Scope} {i : Instruction}
    {c : Coded} (hlower : g.lower c.command = .ok (c.body, g')) (hunit : c.unit = g.unit)
    (hresolve : i.resolve scope = .ok (c.command, scope')) : c.InventsByKind := by
  have hinvented := invented_eq hlower hresolve
  obtain ⟨unit, command, body⟩ := c
  unfold Coded.InventsByKind
  cases command with
  | arithmetic op =>
    dsimp only at hinvented ⊢
    rw [Command.inventions] at hinvented
    split
    · rename_i hop
      rw [if_pos hop, List.map_singleton, text_comparison, ← hunit] at hinvented
      exact ⟨_, hinvented⟩
    · rename_i hop
      rwa [if_neg hop] at hinvented
  | function name locals =>
    rw [Command.inventions, List.map_cons, List.map_singleton, text_localsLoop, text_localsEnd]
      at hinvented
    exact hinvented
  | call callee arguments back =>
    cases scope with
    | none => cases i <;> cases hresolve
    | some s =>
      have hback : back = s.returnAddress := by
        cases i <;> cases hresolve
        rfl
      refine ⟨?_, s.function, s.calls, hback⟩
      rw [hinvented, hback, ← text_returnAddress]
      rfl
  | _ => exact hinvented

theorem selfContained_comparison (condition : Jump) (label : String) :
    SelfContained none (Sequence.comparison condition label) := by
  intro s hs
  have hreferences : referencesOf (Sequence.comparison condition label) = ["SP", label, "SP"] :=
    rfl
  have hlabels : labelsOf (Sequence.comparison condition label) = [label] := rfl
  rw [hreferences] at hs
  rw [hlabels]
  simp only [List.mem_cons, List.not_mem_nil, or_false] at hs
  rcases hs with rfl | rfl | rfl
  · exact .inl (by decide)
  · exact .inr (.inr (List.mem_singleton_self s))
  · exact .inl (by decide)

theorem selfContained_function (name : String) (locals : Int) :
    SelfContained none (Sequence.function name locals) := by
  intro s hs
  have hreferences : referencesOf (Sequence.function name locals) =
      [Sequence.localsEnd name, "SP", "SP", Sequence.localsLoop name] := rfl
  have hlabels : labelsOf (Sequence.function name locals) =
      [name, Sequence.localsLoop name, Sequence.localsEnd name] := rfl
  rw [hreferences] at hs
  rw [hlabels]
  simp only [List.mem_cons, List.not_mem_nil, or_false] at hs
  rcases hs with rfl | rfl | rfl | rfl
  · exact .inr (.inr (by simp))
  · exact .inl (by decide)
  · exact .inl (by decide)
  · exact .inr (.inr (by simp))

/-- The symbols that a call loads before the function that is called. -/
theorem referencesOf_call (callee : String) (arguments : Int) (back : String) :
    ∃ cells, (∀ s ∈ cells, s ∈ memorySymbols) ∧
      referencesOf (Sequence.call callee arguments back) = back :: cells ++ [callee] := by
  refine ⟨["SP", "SP", "LCL", "SP", "SP", "ARG", "SP", "SP", "THIS", "SP", "SP", "THAT", "SP",
    "SP", "SP", "ARG", "SP", "LCL"], by decide, rfl⟩

theorem selfContained_call (callee : String) (arguments : Int) (back : String) :
    SelfContained (some callee) (Sequence.call callee arguments back) := by
  intro s hs
  have hlabels : labelsOf (Sequence.call callee arguments back) = [back] := rfl
  obtain ⟨cells, hcells, hreferences⟩ := referencesOf_call callee arguments back
  rw [hreferences] at hs
  rw [hlabels]
  rcases List.mem_append.mp hs with hs | hs
  · rcases List.mem_cons.mp hs with rfl | hs
    · exact .inr (.inr (List.mem_singleton_self s))
    · exact .inl (hcells s hs)
  · exact .inr (.inl (congrArg some (List.mem_singleton.mp hs).symm))

theorem selfContained_of_lower {g g' : Generator} {c : Command} {body : List Line}
    (hlower : g.lower c = .ok (body, g')) (hc : c.getsLabels = true) :
    SelfContained c.callee? body := by
  cases c with
  | arithmetic op =>
    cases op with
    | eq | gt | lt =>
      obtain ⟨hbody, -⟩ := Prod.mk.inj (Except.ok.inj hlower)
      exact hbody ▸ selfContained_comparison _ _
    | _ => cases hc
  | function name locals =>
    obtain ⟨hbody, -⟩ := Prod.mk.inj (Except.ok.inj hlower)
    exact hbody ▸ selfContained_function name locals
  | call callee arguments back =>
    obtain ⟨hbody, -⟩ := Prod.mk.inj (Except.ok.inj hlower)
    exact hbody ▸ selfContained_call callee arguments back
  | _ => cases hc

theorem selfContained_bootstrap (entry : String) :
    SelfContained (some entry) (Bootstrap.code entry) := by
  intro s hs
  have hreferences : referencesOf (Bootstrap.code entry) =
      "SP" :: (referencesOf (Sequence.call entry 0 Bootstrap.haltLabel) ++
        [Bootstrap.haltLabel]) := rfl
  have hlabels : labelsOf (Bootstrap.code entry) = [Bootstrap.haltLabel] := rfl
  rw [hreferences] at hs
  rw [hlabels]
  rcases List.mem_cons.mp hs with rfl | hs
  · exact .inl (by decide)
  rcases List.mem_append.mp hs with hs | hs
  · exact selfContained_call _ _ _ s hs
  · exact .inr (.inr hs)

/-! ## No label is invented twice -/

/-- No function is declared under the name of the bootstrap. -/
theorem not_isName_bootstrap : ¬ IsName Bootstrap.function := by
  rintro ⟨c, cs, hlist, hstart, -⟩
  have hc : Bootstrap.function.toList = '$' :: "bootstrap".toList := rfl
  rw [hc] at hlist
  obtain ⟨rfl, -⟩ := List.cons.inj hlist
  exact absurd hstart (by decide)

/-- In a program of units with different names that declares each function once, no label is
invented twice, the one of the bootstrap included, and the code that uses such a label defines it
itself. -/
theorem nodup_invented {settings : Settings} {units : List (String × String)} {bootstrap : Bool}
    {text : String} (hnames : (units.map Prod.fst).Nodup)
    (hfunctions : (units.flatMap fun u => declaredIn u.1 u.2).Nodup)
    (h : (translateUnits settings units bootstrap).result = .ok text) :
    ∃ scope parts, StaticScope.ofSetting settings.staticScope = .ok scope ∧
      IsProgramCode scope units parts ∧
      text = Block.text settings.comments
        (startBlocks settings.entry.text bootstrap ++ parts.flatten.map Coded.block) ∧
      (Block.labels (startBlocks settings.entry.text bootstrap) ++
        parts.flatten.flatMap Coded.invented).Nodup ∧
      (∀ c ∈ parts.flatten, c.InventsByKind ∧
        (c.command.getsLabels = true → SelfContained c.command.callee? c.body)) ∧
      SelfContained (some settings.entry.text) (Bootstrap.code settings.entry.text) := by
  obtain ⟨scope, parts, hscope, hparts, -, htext⟩ := translateUnits_eq_ok_iff.mp h
  obtain ⟨ls, hls, hnodup, hcomes⟩ := hparts.exists_inventions hnames hfunctions
  have hinvented : (parts.flatten.flatMap Coded.invented).Nodup := by
    rw [hls]
    exact hnodup.map InventedLabel.text_injective
  refine ⟨scope, parts, hscope, hparts, htext, ?_, ?_, selfContained_bootstrap _⟩
  · cases bootstrap with
    | false => exact hinvented
    | true =>
      have hlabels : Block.labels (startBlocks settings.entry.text true) =
          [InventedLabel.text ⟨Bootstrap.function, .returnAddress 0⟩] := rfl
      rw [hlabels, List.singleton_append, List.nodup_cons]
      refine ⟨fun hmem => ?_, hinvented⟩
      -- a label with this owner would come from a function with this name
      rw [hls] at hmem
      obtain ⟨l, hl, htext⟩ := List.mem_map.mp hmem
      have hcome := hcomes l hl
      rw [InventedLabel.text_injective htext] at hcome
      exact not_isName_bootstrap (hparts.isName_of_mem hcome)
  · intro c hc
    obtain ⟨g₁, g₂, i, scope₁, scope₂, hlower, hunit, -, -, -, hresolve⟩ :=
      hparts.exists_of_mem c hc
    exact ⟨inventsByKind_of_lower hlower hunit hresolve, selfContained_of_lower hlower⟩

/-- Two units that declare, call and compare, with a start in front of them. -/
theorem nodup_invented_two_units :
    ∃ scope parts, IsProgramCode scope
        [("A", "function f 0 call g 0 eq"), ("B", "function g 1 lt")] parts ∧
      (Block.labels (startBlocks "f" true) ++ parts.flatten.flatMap Coded.invented).Nodup := by
  have hreadA : readUnit "function f 0 call g 0 eq" "A" = .ok
      [⟨.function "f" 0, ⟨0, 0⟩⟩, ⟨.call "g" 0 "f$ret.0", ⟨0, 13⟩⟩,
        ⟨.arithmetic .eq, ⟨0, 22⟩⟩] := by cbv
  have hreadB : readUnit "function g 1 lt" "B" = .ok
      [⟨.function "g" 1, ⟨0, 0⟩⟩, ⟨.arithmetic .lt, ⟨0, 13⟩⟩] := by cbv
  obtain ⟨⟨codesA, hA⟩, hdeclaredA⟩ := @exists_isUnitCode .unit _ _ _ _ hreadA rfl
  obtain ⟨⟨codesB, hB⟩, hdeclaredB⟩ := @exists_isUnitCode .unit _ _ _ _ hreadB rfl
  have hdeclared : [("A", "function f 0 call g 0 eq"), ("B", "function g 1 lt")].flatMap
      (fun u => declaredIn u.1 u.2) = ["f", "g"] := by
    rw [List.flatMap_cons, List.flatMap_cons, hdeclaredA, hdeclaredB]
    rfl
  have hresult := @translateUnits_eq_ok_iff { entry := .given "f" } _ true _ |>.mpr
    ⟨.unit, [codesA, codesB], rfl, .cons hA (.cons hB .nil),
      fun _ => ⟨"f", rfl, by rw [hdeclared]; decide⟩, rfl⟩
  obtain ⟨scope, parts, -, hparts, -, hnodup, -⟩ :=
    nodup_invented (by decide) (by rw [hdeclared]; decide) hresult
  exact ⟨scope, parts, hparts, hnodup⟩

end HackVm
