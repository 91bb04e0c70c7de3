import HackVm.Proofs.Program.Simulation
import Mathlib

set_option autoImplicit false

/-! # Translated programs run as written

The last link: an assembler that accepts the text of a translated program puts it where the
simulation needs it. The addresses of commands are sums of sizes, static variables get cells of
their own, and the code at address 0 calls the function that the program starts with. From there on
the processor follows the stack machine for ever (`simulates_program`). -/

namespace HackVm

open StackMachine

/-! ## Layout -/

/-- The part of the start of a program that sets the stack pointer. -/
def Bootstrap.emptyStack : List Line :=
  [.number Memory.stackBase, .assign .toD (.copy .a), Sequence.atStackPointer,
    .assign .toM (.copy .d)]

/-- The start of a program up to the address that the function it calls returns to. -/
def Bootstrap.opening (entry : String) : List Line :=
  emptyStack ++ Sequence.call entry 0 haltLabel

theorem Bootstrap.code_eq (entry : String) :
    Bootstrap.code entry = opening entry ++ Sequence.goto haltLabel := rfl

/-- Where the code of a command begins in the program memory. -/
def commandAddress (entry : String) (codes : List Coded) (k : Nat) : Nat :=
  codeSize (Bootstrap.code entry) + codeSize ((codes.take k).flatMap Coded.body)

/-- What the stack machine runs for a program. -/
def stackProgram (scope : StaticScope) (entry : String) (codes : List Coded) : Program where
  commands := codes.map fun c => (c.unit, c.command)
  statics unit n := symbolsOf (programCode entry codes) (scope.symbol unit n)
  address := commandAddress entry codes
  haltAddress := codeSize (Bootstrap.opening entry)

/-- The symbols of the static variables that are used. -/
def staticSymbols (scope : StaticScope) (codes : List Coded) : List String :=
  codes.filterMap fun c => c.command.static?.map (scope.symbol c.unit)

variable {scope : StaticScope} {entry : String} {codes : List Coded}

theorem commandAddress_succ {k : Nat} {c : Coded} (hk : codes[k]? = some c) :
    commandAddress entry codes (k + 1) = commandAddress entry codes k + codeSize c.body := by
  rw [commandAddress, commandAddress, List.take_add_one, hk, List.flatMap_append, codeSize_append,
    ← Nat.add_assoc]
  simp

theorem placed_command (h : Assemblable (programCode entry codes)) {k : Nat} {c : Coded}
    (hk : codes[k]? = some c) :
    Placed (symbolsOf (programCode entry codes)) (assemble (programCode entry codes))
      (commandAddress entry codes k) c.body := by
  obtain ⟨hlt, hc⟩ := List.getElem?_eq_some_iff.mp hk
  -- the code is cut in front of the command and behind it
  have hcodes : codes = codes.take k ++ c :: codes.drop (k + 1) := by
    rw [← hc, ← List.drop_eq_getElem_cons hlt, List.take_append_drop]
  have hcode : programCode entry codes =
      (Bootstrap.code entry ++ (codes.take k).flatMap Coded.body) ++
        (c.body ++ (codes.drop (k + 1)).flatMap Coded.body) := by
    rw [programCode, List.append_assoc, ← List.flatMap_cons, ← List.flatMap_append, ← hcodes]
  have hsize : commandAddress entry codes k =
      codeSize (Bootstrap.code entry ++ (codes.take k).flatMap Coded.body) := by
    rw [codeSize_append, commandAddress]
  rw [hcode] at h ⊢
  rw [hsize]
  exact (placed_append.mp (placed_assemble_append _ _ h)).1

/-! ## Returning to an address -/

theorem monotone_commandAddress (entry : String) (codes : List Coded) :
    Monotone (commandAddress entry codes) := by
  refine monotone_nat_of_le_succ fun k => ?_
  rw [commandAddress, commandAddress, List.take_add_one, List.flatMap_append, codeSize_append,
    ← Nat.add_assoc]
  exact Nat.le_add_right _ _

theorem commandAddress_le (entry : String) (codes : List Coded) (k : Nat) :
    commandAddress entry codes k ≤ codeSize (programCode entry codes) := by
  have hcodes : codes.flatMap Coded.body =
      (codes.take k).flatMap Coded.body ++ (codes.drop k).flatMap Coded.body := by
    rw [← List.flatMap_append, List.take_append_drop]
  rw [commandAddress, programCode, hcodes, codeSize_append, codeSize_append, ← Nat.add_assoc]
  exact Nat.le_add_right _ _

theorem haltAddress_lt_commandAddress (entry : String) (codes : List Coded) (k : Nat) :
    codeSize (Bootstrap.opening entry) < commandAddress entry codes k := by
  have hgoto : codeSize (Sequence.goto Bootstrap.haltLabel) = 2 := by simp [Sequence.goto]
  rw [commandAddress, Bootstrap.code_eq, codeSize_append, hgoto]
  omega

/-- A return to the address behind a command with instructions goes on with the next command. -/
theorem control?_commandAddress_succ (h : Assemblable (programCode entry codes)) {k : Nat}
    {c : Coded} (hk : codes[k]? = some c) (hsize : 0 < codeSize c.body) :
    (stackProgram scope entry codes).control?
        (BitVec.ofNat 16 (commandAddress entry codes (k + 1))) = some (.command (k + 1)) := by
  have hlt : k < codes.length := (List.getElem?_eq_some_iff.mp hk).1
  have hbound := (commandAddress_le entry codes (k + 1)).trans_lt h.size
  have hnat : (BitVec.ofNat 16 (commandAddress entry codes (k + 1))).toNat =
      commandAddress entry codes (k + 1) := by
    rw [BitVec.toNat_ofNat]
    exact Nat.mod_eq_of_lt (by omega)
  have hhalt : commandAddress entry codes (k + 1) ≠ (stackProgram scope entry codes).haltAddress :=
    (haltAddress_lt_commandAddress entry codes (k + 1)).ne'
  have hfind : (List.range (codes.length + 1)).find? (fun j =>
      commandAddress entry codes j == commandAddress entry codes (k + 1)) = some (k + 1) := by
    rw [List.find?_range_eq_some]
    refine ⟨beq_self_eq_true _, List.mem_range.mpr (by omega), fun j hj => ?_⟩
    -- the commands before begin before the one at `k` ends
    have hle := monotone_commandAddress entry codes (Nat.le_of_lt_succ hj)
    have hnext : commandAddress entry codes (k + 1) = _ := commandAddress_succ hk
    simp only [Bool.not_eq_true', beq_eq_false_iff_ne, ne_eq]
    omega
  have hlength : (stackProgram scope entry codes).commands.length = codes.length :=
    List.length_map _
  rw [Program.control?, hnat, if_neg hhalt, hlength]
  exact congrArg (Option.map Control.command) hfind

/-! ## Static variables -/

theorem StaticScope.mem_toList_symbol (scope : StaticScope) (unit : String) (n : Int) :
    '.' ∈ (scope.symbol unit n).toList := by
  cases scope <;> simp [StaticScope.symbol]

theorem StaticScope.symbol_not_mem_predefined (scope : StaticScope) (unit : String) (n : Int) :
    scope.symbol unit n ∉ predefinedSymbols.map Prod.fst := by
  have hall : ∀ s ∈ predefinedSymbols.map Prod.fst, '.' ∉ s.toList := by decide
  exact fun h => hall _ h (scope.mem_toList_symbol unit n)

/-- The code of a command loads the symbol of the static variable that the command uses. -/
theorem Generator.staticSymbol_mem_referencesOf {g g' : Generator} {c : Command}
    {body : List Line} (h : g.lower c = .ok (body, g')) {n : Int} (hn : c.static? = some n) :
    g.staticSymbol n ∈ referencesOf body := by
  cases c with
  | push segment k =>
    cases segment with
    | static =>
      obtain rfl := Option.some.inj hn
      cases h
      exact List.mem_cons_self
    | _ => cases hn
  | pop segment k =>
    cases segment with
    | static =>
      obtain rfl := Option.some.inj hn
      cases h
      exact List.mem_cons_of_mem _ List.mem_cons_self
    | _ => cases hn
  | _ => cases hn

theorem Coded.IsLowered.mem_referencesOf {c : Coded} (h : c.IsLowered scope) {n : Int}
    (hn : c.command.static? = some n) : scope.symbol c.unit n ∈ referencesOf c.body := by
  obtain ⟨-, g, g', hunit, rfl, hlower⟩ := h
  rw [← hunit]
  exact Generator.staticSymbol_mem_referencesOf hlower hn

theorem mem_staticSymbols_iff {s : String} :
    s ∈ staticSymbols scope codes ↔
      ∃ c ∈ codes, ∃ n, c.command.static? = some n ∧ scope.symbol c.unit n = s := by
  simp [staticSymbols]

/-- Symbols of static variables are variables to an assembler, unless they are labels. -/
theorem mem_variablesOf_of_mem_staticSymbols (hlowered : ∀ c ∈ codes, c.IsLowered scope)
    (hlabels : ∀ s ∈ staticSymbols scope codes, s ∉ labelsOf (programCode entry codes))
    {s : String} (hs : s ∈ staticSymbols scope codes) :
    s ∈ variablesOf (programCode entry codes) := by
  have hlabel := hlabels s hs
  obtain ⟨c, hc, n, hn, rfl⟩ := mem_staticSymbols_iff.mp hs
  have hreference : scope.symbol c.unit n ∈ referencesOf (programCode entry codes) := by
    obtain ⟨line, hline, hreads⟩ := List.mem_filterMap.mp ((hlowered c hc).mem_referencesOf hn)
    refine List.mem_filterMap.mpr ⟨line, List.mem_append_right _ ?_, hreads⟩
    exact List.mem_flatMap.mpr ⟨c, hc, hline⟩
  exact mem_variablesOf_iff.mpr
    ⟨hreference, scope.symbol_not_mem_predefined c.unit n, hlabel⟩

theorem isFree_of_mem_variablesOf {code : List Line} (h : codeSize code < 2 ^ 15) {s : String}
    (hs : s ∈ variablesOf code) : Cell.IsFree (symbolsOf code s) := by
  rw [Cell.IsFree, toNat_symbolsOf_variable h hs]
  exact Nat.le_add_right _ _

/-- An assembled program stands where the simulation needs it. -/
theorem stands_stackProgram (h : Assemblable (programCode entry codes))
    (hlowered : ∀ c ∈ codes, c.IsLowered scope)
    (hlabels : ∀ s ∈ staticSymbols scope codes, s ∉ labelsOf (programCode entry codes)) :
    Stands (symbolsOf (programCode entry codes)) (assemble (programCode entry codes)) scope
      (stackProgram scope entry codes) codes where
  standard := standard_symbolsOf _
  commands := rfl
  lowered := hlowered
  placed _ _ hk := placed_command h hk
  next _ _ hk := commandAddress_succ hk
  statics c hc n hn := by
    refine ⟨rfl, isFree_of_mem_variablesOf h.size ?_⟩
    refine mem_variablesOf_of_mem_staticSymbols hlowered hlabels ?_
    exact mem_staticSymbols_iff.mpr ⟨c, hc, n, hn, rfl⟩

/-! ## The start -/

namespace Bootstrap

variable {σ : Symbols} {rom : Rom}

theorem leads_emptyStack (hσ : σ.Standard) {i : Nat} (h : Placed σ rom i emptyStack) (m : Ram) :
    Leads rom i m (i + codeSize emptyStack)
      (m.set Cell.stackPointer (BitVec.ofNat 16 Memory.stackBase)) := by
  refine leads_of_straight (by simp [emptyStack, Sequence.atStackPointer]) h fun a d => ?_
  simp only [emptyStack, Sequence.atStackPointer, Cpu.follow_cons, Cpu.follow_nil,
    Cpu.pass_symbol, Cpu.pass_number, Cpu.pass_toD, Cpu.pass_toM, Computation.eval_copy,
    Register.read_d, Register.read_a, hσ.stackPointer]
  rfl

/-- The label of the loop at the end stands for the address behind the call. -/
theorem toNat_haltLabel (h : Placed σ rom 0 (Bootstrap.code entry)) :
    (σ haltLabel).toNat = codeSize (opening entry) := by
  rw [Bootstrap.code_eq, opening, List.append_assoc] at h
  obtain ⟨-, h⟩ := placed_append.mp h
  obtain ⟨hcall, -⟩ := placed_append.mp h
  rw [Sequence.toNat_returnAddress hcall, opening, codeSize_append, Nat.zero_add]

/-- The start of a program sets the stack pointer and calls the function that the program starts
with. -/
theorem leads_code (hσ : σ.Standard) (h : Placed σ rom 0 (Bootstrap.code entry)) (m : Ram) :
    Leads rom 0 m (σ entry).toNat (m.start (codeSize (opening entry))) := by
  have hsp : (m.set Cell.stackPointer (BitVec.ofNat 16 Memory.stackBase)).sp =
      BitVec.ofNat 16 Memory.stackBase := Ram.set_self _ _ _
  have words : (m.set Cell.stackPointer (BitVec.ofNat 16 Memory.stackBase)).HasWords 0 := by
    rw [Ram.HasWords, hsp]
    decide
  have room : (m.set Cell.stackPointer (BitVec.ofNat 16 Memory.stackBase)).HasRoom 5 := by
    rw [Ram.HasRoom, hsp]
    decide
  -- the call leaves the address of the loop at the end as its return address
  have haddress : σ haltLabel = BitVec.ofNat 16 (codeSize (opening entry)) := by
    rw [← toNat_haltLabel h, BitVec.ofNat_toNat, BitVec.setWidth_eq]
  rw [Bootstrap.code_eq, opening, List.append_assoc] at h
  obtain ⟨hset, h⟩ := placed_append.mp h
  obtain ⟨hcall, -⟩ := placed_append.mp h
  obtain ⟨-, hleads⟩ := Sequence.leads_call hσ hcall words room
  rw [haddress] at hleads
  exact (leads_emptyStack hσ hset m).trans hleads

end Bootstrap

/-! ## Whole programs -/

theorem IsProgramCode.isLowered {units : List (String × String)} {parts : List (List Coded)}
    (h : IsProgramCode scope units parts) (hunits : ∀ u ∈ units, IsSymbol u.1) :
    ∀ c ∈ parts.flatten, c.IsLowered scope := by
  intro c hc
  obtain ⟨g, g', -, -, -, hlower, hunit, hscope, -⟩ := h.exists_of_mem c hc
  exact ⟨(h.readable hunits c hc).1, g, g', hunit.symm, hscope, hlower⟩

/-- A function that some unit declares is begun by a command of the program. -/
theorem IsProgramCode.exists_function (entry : String) {units : List (String × String)}
    {parts : List (List Coded)} (h : IsProgramCode scope units parts) {name : String}
    (hname : name ∈ units.flatMap fun u => declaredIn u.1 u.2) :
    ∃ j, (stackProgram scope entry parts.flatten).function? name = some j := by
  rw [← h.declarations] at hname
  obtain ⟨command, hcommand, hdeclares⟩ := List.mem_filterMap.mp hname
  obtain ⟨c, hc, rfl⟩ := List.mem_map.mp hcommand
  refine Option.isSome_iff_exists.mp ?_
  rw [Program.function?, List.findIdx?_isSome, List.any_eq_true]
  exact ⟨(c.unit, c.command), List.mem_map_of_mem hc, beq_iff_eq.mpr hdeclares⟩

/-- A translated program runs as written. Its text reads back as code. If an assembler accepts the
code, and no static variable has the name of a label, then static variables have cells of their
own, and the processor, from address 0 with any contents of its registers and its memory, follows
every run of the stack machine. The stack machine itself only stops where the memory does not fit
or a return leads nowhere, if all labels and functions are there. -/
theorem simulates_program {settings : Settings} {units : List (String × String)} {text : String}
    (hunits : ∀ u ∈ units, IsSymbol u.1)
    (h : (translateUnits settings units true).result = .ok text) :
    ∃ scope parts, StaticScope.ofSetting settings.staticScope = .ok scope ∧
      IsProgramCode scope units parts ∧
      let code := programCode settings.entry.text parts.flatten
      let p := stackProgram scope settings.entry.text parts.flatten
      readAssembly text = some code ∧
      (Assemblable code →
        (∀ s ∈ staticSymbols scope parts.flatten, s ∉ labelsOf code) →
        (∀ s ∈ staticSymbols scope parts.flatten, Cell.IsFree (symbolsOf code s)) ∧
        Set.InjOn (symbolsOf code) { s | s ∈ staticSymbols scope parts.flatten } ∧
        (∀ cpu : Cpu, cpu.pc = 0 →
          ∃ start, p.start? settings.entry.text cpu.ram = some start ∧
            ∀ n s, p.run n start = some s → ∃ cpu', Cpu.Reaches (assemble code) cpu cpu' ∧
              cpu'.pc = p.addressOf s.control ∧ cpu'.ram.Agree s.ram) ∧
        (p.Linked → ∀ s, p.step s = none → p.IsStuck s)) := by
  obtain ⟨scope, parts, hscope, hparts, hentry, rfl⟩ := translateUnits_eq_ok_iff.mp h
  obtain ⟨entry, hgiven, hdeclared⟩ := hentry rfl
  have hname : settings.entry.text = entry := by rw [hgiven]; rfl
  have hsymbol : IsSymbol entry := (hparts.isName_of_mem hdeclared).isSymbol
  have hlowered := hparts.isLowered hunits
  rw [hname]
  refine ⟨scope, parts, hscope, hparts, readAssembly_of_isProgramCode _ hparts hunits hsymbol,
    fun assemblable hlabels => ?_⟩
  have stands := stands_stackProgram assemblable hlowered hlabels
  have hvariables : ∀ s ∈ staticSymbols scope parts.flatten,
      s ∈ variablesOf (programCode entry parts.flatten) :=
    fun s => mem_variablesOf_of_mem_staticSymbols hlowered hlabels
  refine ⟨fun s hs => isFree_of_mem_variablesOf assemblable.size (hvariables s hs),
    (injOn_symbolsOf_variables assemblable.size).mono hvariables, fun cpu hpc => ?_,
    fun linked s => stands.isStuck_of_step_eq_none linked⟩
  -- the start runs to the function it calls, and from there the processor follows
  obtain ⟨j, hj⟩ := hparts.exists_function entry hdeclared
  refine ⟨_, by rw [Program.start?, hj]; rfl, fun n s hrun => ?_⟩
  have hstart := Bootstrap.leads_code stands.standard
    (placed_append.mp (placed_assemble assemblable)).1 cpu.ram
  rw [stands.function hj] at hstart
  obtain ⟨m, hleads, agree⟩ := stands.simulates_run hrun (.refl _)
  obtain ⟨cpu', hreaches, hpc', hram⟩ := hstart.trans hleads cpu hpc rfl
  exact ⟨cpu', hreaches, hpc', hram ▸ agree⟩

/-- A program that keeps a number in a static variable and returns it. -/
def keepSeven : List Coded := [
  ⟨"Sys", .function "Sys.init" 0, Sequence.function "Sys.init" 0⟩,
  ⟨"Sys", .push .constant 7, Sequence.pushConstant 7⟩,
  ⟨"Sys", .pop .static 0, Sequence.popCell (StaticScope.unit.symbol "Sys" 0)⟩,
  ⟨"Sys", .push .static 0, Sequence.pushCell (StaticScope.unit.symbol "Sys" 0)⟩,
  ⟨"Sys", .ret, Sequence.ret⟩]

/-- The program runs to its end, with the number in the static variable and on the stack. -/
theorem simulates_program_keepSeven :
    ∃ text code cpu', (translateUnits { entry := .given "Sys.init" }
        [("Sys", "function Sys.init 0 push constant 7 pop static 0 push static 0 return")]
        true).result = .ok text ∧
      readAssembly text = some code ∧ Cpu.Reaches (assemble code) ⟨0, 0, 0, fun _ => 0⟩ cpu' ∧
      cpu'.pc = codeSize (Bootstrap.opening "Sys.init") ∧ cpu'.ram 16 = 7 ∧ cpu'.ram 256 = 7 ∧
      cpu'.ram.sp = 257 := by
  have hread : readUnit
      "function Sys.init 0 push constant 7 pop static 0 push static 0 return" "Sys" = .ok
      [⟨.function "Sys.init" 0, ⟨0, 0⟩⟩, ⟨.push .constant 7, ⟨0, 20⟩⟩,
        ⟨.pop .static 0, ⟨0, 36⟩⟩, ⟨.push .static 0, ⟨0, 49⟩⟩, ⟨.ret, ⟨0, 63⟩⟩] := by cbv
  have hunit : IsUnitCode .unit "Sys"
      "function Sys.init 0 push constant 7 pop static 0 push static 0 return" keepSeven :=
    ⟨_, hread, rfl, .cons rfl rfl (.cons rfl rfl (.cons rfl rfl (.cons rfl rfl
      (.cons rfl rfl (.nil _)))))⟩
  have hparts : IsProgramCode .unit [("Sys",
      "function Sys.init 0 push constant 7 pop static 0 push static 0 return")] [keepSeven] :=
    .cons hunit .nil
  have hdeclared : "Sys.init" ∈ [("Sys",
      "function Sys.init 0 push constant 7 pop static 0 push static 0 return")].flatMap
      (fun u => declaredIn u.1 u.2) := by
    rw [← hparts.declarations]
    decide
  have hresult := @translateUnits_eq_ok_iff { entry := .given "Sys.init" } _ true _ |>.mpr
    ⟨.unit, [keepSeven], rfl, hparts, fun _ => ⟨_, rfl, hdeclared⟩, rfl⟩
  obtain ⟨scope, parts, hscope, hparts', hread, hsimulates⟩ :=
    simulates_program (by decide) hresult
  obtain rfl : StaticScope.unit = scope := Except.ok.inj hscope
  obtain rfl : [keepSeven] = parts := hparts.unique hparts'
  obtain ⟨-, -, hruns, -⟩ := hsimulates (by decide +kernel) (by decide +kernel)
  obtain ⟨start, hstart, hrun⟩ := hruns ⟨0, 0, 0, fun _ => 0⟩ rfl
  -- five commands up to the return, computed
  have hfive : (((stackProgram .unit "Sys.init" [keepSeven].flatten).start? "Sys.init"
      fun _ => 0).bind ((stackProgram .unit "Sys.init" [keepSeven].flatten).run 5)).any (fun s =>
        s.control == .halted && s.ram 16 == 7 && s.ram 256 == 7 && s.ram.sp == 257) = true := by
    decide +kernel
  obtain ⟨s, hs, hs'⟩ := (Option.any_eq_true _ _).mp hfive
  obtain ⟨start', hstart', hs⟩ := Option.bind_eq_some_iff.mp hs
  obtain rfl := Option.some.inj (hstart.symm.trans hstart')
  simp only [Bool.and_eq_true, beq_iff_eq] at hs'
  obtain ⟨⟨⟨hcontrol, hstatic⟩, htop⟩, hsp⟩ := hs'
  obtain ⟨cpu', hreaches, hpc, agree⟩ := hrun 5 s hs
  refine ⟨_, _, cpu', hresult, hread, hreaches, ?_, ?_, ?_, ?_⟩
  · rw [hpc, hcontrol]
    rfl
  · rw [agree 16 (by decide), hstatic]
  · rw [agree 256 (by decide), htop]
  · rw [agree.sp, hsp]

end HackVm
