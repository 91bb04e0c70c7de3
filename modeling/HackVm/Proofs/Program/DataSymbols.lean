import HackVm.Proofs.Program.Correctness
import HackVm.Proofs.Program.LabelClashes

set_option autoImplicit false

/-! # Symbols of data

Code loads symbols of three kinds: those of registers and of static variables, which stand for
cells of the memory, and names of places in the program. `referencesOf_cases` says which a command
loads. Nothing keeps the kinds apart: a function may have the name of a register or of a static
variable, and in a unit with a `$` in its name a label may have that of a static variable. No label
has the symbol of a register but a function, and none has that of any other static variable
(`mem_labelsOf_iff_of_data`). -/

namespace HackVm

/-! ## Registers -/

/-- The symbols of the temp segment. -/
def tempSymbols : List String :=
  (List.range Memory.tempSize).map fun i => "R" ++ toString (Memory.tempBase + i)

/-- The symbols of the registers that code works with. -/
def registerSymbols : List String :=
  memorySymbols ++ tempSymbols ++ [Memory.scratchAddress, Memory.scratchReturn]

theorem registerSymbols_subset : registerSymbols ⊆ predefinedSymbols.map Prod.fst := by decide

theorem mark_not_mem_registerSymbols : ∀ s ∈ registerSymbols, '$' ∉ s.toList := by decide

theorem memorySymbols_subset : memorySymbols ⊆ registerSymbols := by decide

theorem Base.symbol_mem_registerSymbols (b : Base) : b.symbol ∈ registerSymbols := by
  cases b <;> decide

theorem mem_registerSymbols_of_pointerCell {n : Int} {symbol : String}
    (h : Memory.pointerCell n = .ok symbol) : symbol ∈ registerSymbols := by
  rcases Memory.exists_of_pointerCell h with ⟨-, rfl⟩ | ⟨-, rfl⟩
  · exact Base.symbol_mem_registerSymbols _
  · exact Base.symbol_mem_registerSymbols _

theorem mem_registerSymbols_of_tempCell {n : Int} {symbol : String}
    (h : Memory.tempCell n = .ok symbol) : symbol ∈ registerSymbols := by
  unfold Memory.tempCell at h
  split at h
  · rename_i hn
    cases h
    obtain ⟨k, rfl⟩ := Int.eq_ofNat_of_zero_le hn.1
    have hk : k < Memory.tempSize := Int.ofNat_lt.mp hn.2
    refine List.mem_append_left _ (List.mem_append_right _ ?_)
    exact List.mem_map.mpr ⟨k, List.mem_range.mpr hk, rfl⟩
  · cases h

/-! ## What code loads -/

namespace Sequence

theorem referencesOf_pushBased (base : Base) (n : Int) :
    referencesOf (pushBased base n) ⊆ registerSymbols := by
  have hreferences : referencesOf (pushBased base n) = [base.symbol, "SP", "SP"] := rfl
  rw [hreferences, List.cons_subset]
  exact ⟨base.symbol_mem_registerSymbols, by decide⟩

theorem referencesOf_popBased (base : Base) (n : Int) :
    referencesOf (popBased base n) ⊆ registerSymbols := by
  have hreferences : referencesOf (popBased base n) = [base.symbol, "R13", "SP", "R13"] := rfl
  rw [hreferences, List.cons_subset]
  exact ⟨base.symbol_mem_registerSymbols, by decide⟩

theorem referencesOf_pushCell (symbol : String) :
    referencesOf (pushCell symbol) ⊆ symbol :: registerSymbols :=
  List.cons_subset_cons symbol (by decide)

theorem referencesOf_popCell (symbol : String) :
    referencesOf (popCell symbol) ⊆ symbol :: registerSymbols := by
  have hreferences : referencesOf (popCell symbol) = ["SP", symbol] := rfl
  rw [hreferences]
  simp [registerSymbols, memorySymbols, Memory.stackPointer]

end Sequence

/-- Code for a cell of a fixed segment loads registers only. -/
theorem mem_registerSymbols_of_cell {ε ε' : Type} {f : String → List Line} {e : ε → ε'}
    {r : Except ε String} {body : List Line}
    (hf : ∀ symbol, referencesOf (f symbol) ⊆ symbol :: registerSymbols)
    (hr : ∀ symbol, r = .ok symbol → symbol ∈ registerSymbols)
    (h : f <$> r.mapError e = .ok body) {s : String} (hs : s ∈ referencesOf body) :
    s ∈ registerSymbols := by
  obtain ⟨symbol, hsymbol, rfl⟩ := exists_of_map_mapError h
  rcases List.mem_cons.mp (hf symbol hs) with rfl | hs
  · exact hr _ hsymbol
  · exact hs

namespace Generator

variable {g : Generator} {segment : Segment} {n : Int} {body : List Line}

theorem referencesOf_push (h : g.push segment n = .ok body) {s : String}
    (hs : s ∈ referencesOf body) :
    s ∈ registerSymbols ∨ (Command.push segment n).static?.map g.staticSymbol = some s := by
  cases segment with
  | based base =>
    cases h
    exact .inl (Sequence.referencesOf_pushBased base n hs)
  | constant =>
    cases h
    have hreferences : referencesOf (Sequence.pushConstant n) ⊆ registerSymbols :=
      show ["SP", "SP"] ⊆ registerSymbols by decide
    exact .inl (hreferences hs)
  | static =>
    cases h
    rcases List.mem_cons.mp (Sequence.referencesOf_pushCell _ hs) with rfl | hs
    · exact .inr rfl
    · exact .inl hs
  | pointer =>
    exact .inl (mem_registerSymbols_of_cell Sequence.referencesOf_pushCell
      (fun _ => mem_registerSymbols_of_pointerCell) h hs)
  | temp =>
    exact .inl (mem_registerSymbols_of_cell Sequence.referencesOf_pushCell
      (fun _ => mem_registerSymbols_of_tempCell) h hs)

theorem referencesOf_pop (h : g.pop segment n = .ok body) {s : String}
    (hs : s ∈ referencesOf body) :
    s ∈ registerSymbols ∨ (Command.pop segment n).static?.map g.staticSymbol = some s := by
  cases segment with
  | based base =>
    cases h
    exact .inl (Sequence.referencesOf_popBased base n hs)
  | constant => cases h
  | static =>
    cases h
    rcases List.mem_cons.mp (Sequence.referencesOf_popCell _ hs) with rfl | hs
    · exact .inr rfl
    · exact .inl hs
  | pointer =>
    exact .inl (mem_registerSymbols_of_cell Sequence.referencesOf_popCell
      (fun _ => mem_registerSymbols_of_pointerCell) h hs)
  | temp =>
    exact .inl (mem_registerSymbols_of_cell Sequence.referencesOf_popCell
      (fun _ => mem_registerSymbols_of_tempCell) h hs)

end Generator

/-- The place that a command goes to. -/
def Command.target? (c : Command) : Option String := c.jumpTarget? <|> c.callee?

/-- A symbol that the code of a command loads is that of a register or of the static variable that
the command uses, or it is the place that the command goes to, or a label of the code. -/
theorem referencesOf_cases {g g' : Generator} {c : Command} {body : List Line}
    (h : g.lower c = .ok (body, g')) {s : String} (hs : s ∈ referencesOf body) :
    s ∈ registerSymbols ∨ c.static?.map g.staticSymbol = some s ∨ c.target? = some s ∨
      s ∈ labelsOf body := by
  have hself : SelfContained c.callee? body → c.jumpTarget? = none →
      s ∈ registerSymbols ∨ c.static?.map g.staticSymbol = some s ∨ c.target? = some s ∨
        s ∈ labelsOf body := by
    intro hcontained hjump
    rcases hcontained s hs with hmemory | hcallee | hlabel
    · exact .inl (memorySymbols_subset hmemory)
    · exact .inr (.inr (.inl (by rw [Command.target?, hjump, hcallee]; rfl)))
    · exact .inr (.inr (.inr hlabel))
  -- commands with labels of their own are self-contained, the others load few symbols
  cases c with
  | arithmetic op =>
    by_cases hop : op.isComparison = true
    · exact hself (selfContained_of_lower h hop) rfl
    · have hreferences : referencesOf body ⊆ registerSymbols := by
        cases op with
        | eq | gt | lt => exact absurd rfl hop
        | _ =>
          cases h
          exact show ["SP"] ⊆ registerSymbols by decide
      exact .inl (hreferences hs)
  | push segment n =>
    exact (Generator.referencesOf_push (Generator.eq_of_map_eq_ok h).1 hs).imp_right .inl
  | pop segment n =>
    exact (Generator.referencesOf_pop (Generator.eq_of_map_eq_ok h).1 hs).imp_right .inl
  | label name =>
    cases h
    cases hs
  | goto name =>
    cases h
    obtain rfl := List.mem_singleton.mp hs
    exact .inr (.inr (.inl rfl))
  | ifGoto name =>
    cases h
    have hreferences : referencesOf (Sequence.ifGoto name) = ["SP", name] := rfl
    rw [hreferences] at hs
    rcases List.mem_cons.mp hs with rfl | hs
    · exact .inl (by decide)
    · obtain rfl := List.mem_singleton.mp hs
      exact .inr (.inr (.inl rfl))
  | function name n => exact hself (selfContained_of_lower h rfl) rfl
  | call callee n back => exact hself (selfContained_of_lower h rfl) rfl
  | ret =>
    cases h
    have hreferences : referencesOf Sequence.ret ⊆ registerSymbols := by decide
    exact .inl (hreferences hs)

/-! ## Data among labels -/

/-- A number is written with digits and perhaps a sign. -/
theorem not_mem_toString {c : Char} (hdigit : c.isDigit = false) (hsign : c ≠ '-') (n : Int) :
    c ∉ (toString n).toList := by
  have hnat : ∀ k : Nat, c ∉ (toString k).toList := by
    intro k hmem
    rw [Text.isDigit_of_mem_toString hmem] at hdigit
    cases hdigit
  cases n with
  | ofNat k => exact hnat k
  | negSucc k =>
    rw [Text.toList_toString_negSucc, List.mem_cons, not_or]
    exact ⟨hsign, hnat (k + 1)⟩

/-- A character of neither numbers nor the common prefix stands in the symbol of a static variable
only as it stands in the name of the unit. -/
theorem StaticScope.mem_symbol_iff {c : Char} (hdigit : c.isDigit = false) (hsign : c ≠ '-')
    (hfront : c ∉ "Static.".toList) (scope : StaticScope) (unit : String) (n : Int) :
    c ∈ (scope.symbol unit n).toList ↔ scope = .unit ∧ c ∈ unit.toList := by
  have hnumber : c ∉ (toString n).toList := not_mem_toString hdigit hsign n
  have hdot : c ∉ ".".toList := fun hmem => hfront (List.mem_append_right "Static".toList hmem)
  cases scope with
  | unit =>
    rw [symbol, String.toList_append, String.toList_append, List.mem_append, List.mem_append]
    simp only [hdot, hnumber, or_false, true_and]
  | global =>
    rw [symbol, String.toList_append, List.mem_append]
    simp only [hfront, hnumber, or_false, reduceCtorEq, false_and]

/-- The symbol of a static variable has a `$` in it if its unit has. -/
theorem StaticScope.mark_mem_symbol_iff (scope : StaticScope) (unit : String) (n : Int) :
    '$' ∈ (scope.symbol unit n).toList ↔ scope = .unit ∧ '$' ∈ unit.toList :=
  scope.mem_symbol_iff (by decide) (by decide) (by decide) unit n

theorem labelsOf_flatMap_body (blocks : List Block) :
    labelsOf (blocks.flatMap Block.body) = Block.labels blocks :=
  List.filterMap_flatMap

namespace IsProgramCode

variable {scope : StaticScope} {units : List (String × String)} {parts : List (List Coded)}

/-- A label is a function, or it is a label with a `$` in it. -/
theorem mem_labels_iff (h : IsProgramCode scope units parts) (entry : String) (bootstrap : Bool)
    {s : String} :
    s ∈ Block.labels (startBlocks entry bootstrap ++ parts.flatten.map Coded.block) ↔
      s ∈ programFunctions units ∨ '$' ∈ s.toList ∧
        ((∃ a ∈ programLabels units, a.text = s) ∨
          ∃ l ∈ programInventions bootstrap units, l.text = s) := by
  have hmark : ((∃ a ∈ programLabels units, a.text = s) ∨
      ∃ l ∈ programInventions bootstrap units, l.text = s) → '$' ∈ s.toList := by
    rintro (⟨a, -, rfl⟩ | ⟨l, -, rfl⟩)
    · simp [LocalLabel.toList_text]
    · simp [InventedLabel.text]
  rw [(h.perm_labels entry bootstrap).mem_iff, List.mem_append, h.mem_written_iff, List.mem_map,
    or_assoc, and_iff_right_of_imp hmark]

/-- The code of a program loads symbols of registers and of static variables, and places. -/
theorem referencesOf_cases (h : IsProgramCode scope units parts) {entry : String}
    {bootstrap : Bool} {s : String}
    (hs : s ∈ referencesOf
      ((startBlocks entry bootstrap ++ parts.flatten.map Coded.block).flatMap Block.body)) :
    s ∈ registerSymbols ∨ s ∈ staticSymbols scope parts.flatten ∨
      (∃ c ∈ parts.flatten, c.command.target? = some s) ∨ bootstrap = true ∧ entry = s ∨
        s ∈ Block.labels (startBlocks entry bootstrap ++ parts.flatten.map Coded.block) := by
  rw [referencesOf, List.filterMap_flatMap, List.mem_flatMap] at hs
  obtain ⟨b, hb, hs⟩ := hs
  have hlabel : s ∈ labelsOf b.body →
      s ∈ Block.labels (startBlocks entry bootstrap ++ parts.flatten.map Coded.block) :=
    fun hs => List.mem_flatMap.mpr ⟨b, hb, hs⟩
  rcases List.mem_append.mp hb with hstart | hblock
  · cases bootstrap with
    | false => cases hstart
    | true =>
      obtain rfl := List.mem_singleton.mp hstart
      rcases selfContained_bootstrap entry s hs with hmemory | hentry | hown
      · exact .inl (memorySymbols_subset hmemory)
      · exact .inr (.inr (.inr (.inl ⟨rfl, Option.some.inj hentry⟩)))
      · exact .inr (.inr (.inr (.inr (hlabel hown))))
  · obtain ⟨c, hc, rfl⟩ := List.mem_map.mp hblock
    obtain ⟨g, g', -, -, -, hlower, hunit, rfl, -⟩ := h.exists_of_mem c hc
    rcases HackVm.referencesOf_cases hlower hs with hregister | hstatic | htarget | hown
    · exact .inl hregister
    · obtain ⟨n, hn, rfl⟩ := Option.map_eq_some_iff.mp hstatic
      refine .inr (.inl (mem_staticSymbols_iff.mpr ⟨c, hc, n, hn, ?_⟩))
      rw [hunit]
      rfl
    · exact .inr (.inr (.inl ⟨c, hc, htarget⟩))
    · exact .inr (.inr (.inr (.inr (hlabel hown))))

/-- A static variable is a variable to an assembler, unless it is a label. -/
theorem mem_variablesOf_of_mem_staticSymbols (h : IsProgramCode scope units parts)
    {start : List Block} {s : String} (hs : s ∈ staticSymbols scope parts.flatten)
    (hlabel : s ∉ labelsOf ((start ++ parts.flatten.map Coded.block).flatMap Block.body)) :
    s ∈ variablesOf ((start ++ parts.flatten.map Coded.block).flatMap Block.body) := by
  obtain ⟨c, hc, n, hn, rfl⟩ := mem_staticSymbols_iff.mp hs
  have hreference : scope.symbol c.unit n ∈ referencesOf
      ((start ++ parts.flatten.map Coded.block).flatMap Block.body) := by
    obtain ⟨g, g', -, -, -, hlower, hunit, rfl, -⟩ := h.exists_of_mem c hc
    rw [referencesOf, List.filterMap_flatMap, hunit]
    refine List.mem_flatMap.mpr ⟨c.block, ?_, Generator.staticSymbol_mem_referencesOf hlower hn⟩
    exact List.mem_append_right _ (List.mem_map_of_mem hc)
  exact mem_variablesOf_iff.mpr
    ⟨hreference, scope.symbol_not_mem_predefined c.unit n, hlabel⟩

end IsProgramCode

/-- What the code of a program loads is the symbol of a register or of a static variable, or a
place. Symbols of registers are predefined, and are labels just if functions have them for names;
a symbol of a static variable is a label just if a function has it for a name, or if the unit has a
`$` in its name and some other label is the same. A static variable that is no label is a variable
to an assembler. -/
theorem mem_labelsOf_iff_of_data {settings : Settings} {units : List (String × String)}
    {bootstrap : Bool} {text : String}
    (h : (translateUnits settings units bootstrap).result = .ok text) :
    ∃ scope parts, StaticScope.ofSetting settings.staticScope = .ok scope ∧
      IsProgramCode scope units parts ∧
      let blocks := startBlocks settings.entry.text bootstrap ++ parts.flatten.map Coded.block
      let code := blocks.flatMap Block.body
      text = Block.text settings.comments blocks ∧
      (∀ s ∈ referencesOf code, s ∈ registerSymbols ∨ s ∈ staticSymbols scope parts.flatten ∨
        (∃ c ∈ parts.flatten, c.command.target? = some s) ∨
          bootstrap = true ∧ settings.entry.text = s ∨ s ∈ labelsOf code) ∧
      (∀ s ∈ registerSymbols, s ∈ predefinedSymbols.map Prod.fst ∧
        (s ∈ labelsOf code ↔ s ∈ programFunctions units)) ∧
      (∀ c ∈ parts.flatten, ∀ n, c.command.static? = some n →
        (scope.symbol c.unit n ∈ labelsOf code ↔
          scope.symbol c.unit n ∈ programFunctions units ∨
            (scope = .unit ∧ '$' ∈ c.unit.toList) ∧
              ((∃ a ∈ programLabels units, a.text = scope.symbol c.unit n) ∨
                ∃ l ∈ programInventions bootstrap units, l.text = scope.symbol c.unit n))) ∧
      (∀ s ∈ staticSymbols scope parts.flatten, s ∉ labelsOf code → s ∈ variablesOf code) := by
  obtain ⟨scope, parts, hscope, hparts, -, htext⟩ := translateUnits_eq_ok_iff.mp h
  refine ⟨scope, parts, hscope, hparts, htext, fun s hs => ?_, fun s hs => ?_, fun c hc n hn => ?_,
    fun s => hparts.mem_variablesOf_of_mem_staticSymbols⟩
  · rw [labelsOf_flatMap_body]
    exact hparts.referencesOf_cases hs
  · rw [labelsOf_flatMap_body, hparts.mem_labels_iff]
    simp [registerSymbols_subset hs, mark_not_mem_registerSymbols s hs]
  · rw [labelsOf_flatMap_body, hparts.mem_labels_iff, scope.mark_mem_symbol_iff]

/-- A program that pushes a static variable and pops into a register. -/
def keepStatic : String := "function Main.main 0 push static 0 pop temp 3"

def keepStaticCode : List Coded := [
  ⟨"Main", .function "Main.main" 0, Sequence.function "Main.main" 0⟩,
  ⟨"Main", .push .static 0, Sequence.pushCell "Main.0"⟩,
  ⟨"Main", .pop .temp 3, Sequence.popCell "R8"⟩]

/-- Registers are no labels there, and the static variable is a variable. -/
theorem mem_variablesOf_keepStatic :
    ∃ scope parts, IsProgramCode scope [("Main", keepStatic)] parts ∧
      let code := (parts.flatten.map Coded.block).flatMap Block.body
      "R8" ∈ referencesOf code ∧ (∀ s ∈ registerSymbols, s ∉ labelsOf code) ∧
        "Main.0" ∈ variablesOf code := by
  have hread : readUnit keepStatic "Main" = .ok
      [⟨.function "Main.main" 0, ⟨0, 0⟩⟩, ⟨.push .static 0, ⟨0, 21⟩⟩,
        ⟨.pop .temp 3, ⟨0, 35⟩⟩] := by cbv
  have hcodes : IsUnitCode .unit "Main" keepStatic keepStaticCode :=
    ⟨_, hread, rfl, .cons rfl rfl (.cons rfl rfl (.cons rfl rfl (.nil _)))⟩
  obtain ⟨hparts, hresult⟩ := hcodes.program
  obtain ⟨scope, parts, hscope, hparts', -, -, hregisters, -, hvariables⟩ :=
    mem_labelsOf_iff_of_data hresult
  obtain rfl : StaticScope.unit = scope := Except.ok.inj hscope
  obtain rfl : [keepStaticCode] = parts := hparts.unique hparts'
  have hfunctions : programFunctions [("Main", keepStatic)] = ["Main.main"] := by
    rw [programFunctions, ← hparts.declarations]
    rfl
  refine ⟨.unit, [keepStaticCode], hparts, by decide, fun s hs hlabel => ?_,
    hvariables "Main.0" (by decide) (by decide)⟩
  have hfunction := (hregisters s hs).2.mp hlabel
  rw [hfunctions, List.mem_singleton] at hfunction
  rw [hfunction] at hs
  exact absurd hs (by decide)

/-- A program with three static variables and a function with the name of a register. -/
def captured : String :=
  "function F 0 label ret.1 call F 0 push static 0 push static 1 push static 2 " ++
    "function F$ret.2 0 function SP 0"

def capturedCode : List Coded := [
  ⟨"F$ret", .function "F" 0, Sequence.function "F" 0⟩,
  ⟨"F$ret", .label "F$ret.1", [.label "F$ret.1"]⟩,
  ⟨"F$ret", .call "F" 0 "F$ret.0", Sequence.call "F" 0 "F$ret.0"⟩,
  ⟨"F$ret", .push .static 0, Sequence.pushCell "F$ret.0"⟩,
  ⟨"F$ret", .push .static 1, Sequence.pushCell "F$ret.1"⟩,
  ⟨"F$ret", .push .static 2, Sequence.pushCell "F$ret.2"⟩,
  ⟨"F$ret", .function "F$ret.2" 0, Sequence.function "F$ret.2" 0⟩,
  ⟨"F$ret", .function "SP" 0, Sequence.function "SP" 0⟩]

/-- The static variables are the place behind a call, a label and a function, and a function has
the name of the stack pointer. -/
theorem mem_labelsOf_captured :
    IsProgramCode .unit [("F$ret", captured)] [capturedCode] ∧
      (translateUnits {} [("F$ret", captured)] false).result =
        .ok (Block.text true (capturedCode.map Coded.block)) ∧
      let code := (capturedCode.map Coded.block).flatMap Block.body
      staticSymbols .unit capturedCode = ["F$ret.0", "F$ret.1", "F$ret.2"] ∧
        (∀ s ∈ staticSymbols .unit capturedCode, s ∈ referencesOf code ∧ s ∈ labelsOf code) ∧
        "SP" ∈ registerSymbols ∧ "SP" ∈ referencesOf code ∧ "SP" ∈ labelsOf code := by
  have hread : readUnit captured "F$ret" = .ok
      [⟨.function "F" 0, ⟨0, 0⟩⟩, ⟨.label "F$ret.1", ⟨0, 13⟩⟩, ⟨.call "F" 0 "F$ret.0", ⟨0, 25⟩⟩,
        ⟨.push .static 0, ⟨0, 34⟩⟩, ⟨.push .static 1, ⟨0, 48⟩⟩, ⟨.push .static 2, ⟨0, 62⟩⟩,
        ⟨.function "F$ret.2" 0, ⟨0, 76⟩⟩, ⟨.function "SP" 0, ⟨0, 95⟩⟩] := by cbv
  have hcodes : IsUnitCode .unit "F$ret" captured capturedCode :=
    ⟨_, hread, rfl, .cons rfl rfl (.cons rfl rfl (.cons rfl rfl (.cons rfl rfl (.cons rfl rfl
      (.cons rfl rfl (.cons rfl rfl (.cons rfl rfl (.nil _))))))))⟩
  obtain ⟨hparts, hresult⟩ := hcodes.program
  exact ⟨hparts, hresult, by decide, by decide, by decide, by decide, by decide⟩

end HackVm
