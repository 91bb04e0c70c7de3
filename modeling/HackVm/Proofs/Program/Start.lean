import HackVm.Proofs.Program.AssemblyLines
import HackVm.Proofs.Program.DataSymbols
import HackVm.Proofs.StackMachine.Frame

set_option autoImplicit false

/-! # Where programs start and end

A program with a start begins with a block that calls the entry function, and behind the call it
stays in a loop. The label of the loop is the one that no program can write or get: the lines of a
text put it down once, whatever the units are called (`IsProgramCode.exists_textLines`). On the
processor the start leads to the entry function with one frame on the stack (`Ram.Started`), and a
loop that jumps to itself is never left (`Cpu.run_loop`). -/

namespace HackVm

/-! ## Lines that define labels -/

/-- Only the definition of a label is written in parentheses. -/
theorem Line.text_eq_label_iff {line : Line} {name : String} :
    line.text = (Line.label name).text ↔ line = .label name := by
  refine ⟨fun h => ?_, fun h => h ▸ rfl⟩
  have htext : ∀ s, (Line.label s).text.toList = '(' :: (s.toList ++ [')']) := by
    intro s
    simp [Line.text]
  have hlist := congrArg String.toList h
  rw [htext name] at hlist
  cases line with
  | label s =>
    rw [htext s] at hlist
    have hname := List.append_cancel_right (List.cons.inj hlist).2
    rw [String.toList_inj.mp hname]
  | symbol s =>
    simp [Line.text] at hlist
  | number n =>
    simp [Line.text] at hlist
  | compute t c j =>
    have hcompute : '(' ∉ (Line.compute t c j).text.toList :=
      not_mem_compute (by decide) t.text_mem c.text_mem j.text_mem
    rw [hlist] at hcompute
    exact absurd List.mem_cons_self hcompute

theorem count_label_map_text (code : List Line) (name : String) :
    (code.map Line.text).count (Line.label name).text = (labelsOf code).count name := by
  induction code with
  | nil => rfl
  | cons line code ih =>
    rw [List.map_cons, List.count_cons, ih]
    by_cases h : line = .label name
    · subst h
      simp [labelsOf, Line.defines?]
    · have htext : line.text ≠ (Line.label name).text :=
        fun heq => h (Line.text_eq_label_iff.mp heq)
      rw [if_neg (by simpa using htext), Nat.add_zero]
      cases line with
      | label s =>
        have hs : s ≠ name := by
          rintro rfl
          exact h rfl
        simp [labelsOf, Line.defines?, hs]
      | _ => rfl

/-- The lines of a block define the labels of its code. -/
theorem Block.count_label_lines (comments : Bool) (b : Block) (name : String) :
    (b.lines comments).count (Line.label name).text = (labelsOf b.body).count name := by
  have hempty : [""].count (Line.label name).text = 0 := by
    refine List.count_eq_zero.mpr ?_
    simp [Line.text]
  have hheader :
      (if comments then ["// " ++ b.header] else []).count (Line.label name).text = 0 := by
    refine List.count_eq_zero.mpr fun hmem => ?_
    cases comments with
    | false => cases hmem
    | true =>
      have hlist := congrArg String.toList (List.mem_singleton.mp hmem)
      simp [Line.text] at hlist
  rw [Block.lines, List.count_append, List.count_append, hheader, hempty, count_label_map_text,
    Nat.zero_add, Nat.add_zero]

theorem Block.count_label_flatMap_lines (comments : Bool) (blocks : List Block) (name : String) :
    (blocks.flatMap (Block.lines comments)).count (Line.label name).text =
      (Block.labels blocks).count name := by
  induction blocks with
  | nil => rfl
  | cons b blocks ih =>
    have hlabels : Block.labels (b :: blocks) = labelsOf b.body ++ Block.labels blocks := rfl
    rw [List.flatMap_cons, List.count_append, ih, Block.count_label_lines, hlabels,
      List.count_append]

/-! ## Lines of code in units of any name -/

/-- No line feed stands in a line if none stands in a name that the code loads or defines. -/
theorem newline_not_mem_text {code : List Line}
    (hreferences : ∀ s ∈ referencesOf code, '\n' ∉ s.toList)
    (hlabels : ∀ s ∈ labelsOf code, '\n' ∉ s.toList) :
    ∀ line ∈ code, '\n' ∉ line.text.toList := by
  intro line hline
  cases line with
  | symbol name =>
    have hname := hreferences name (List.mem_filterMap.mpr ⟨_, hline, rfl⟩)
    simpa [Line.text] using hname
  | label name =>
    have hname := hlabels name (List.mem_filterMap.mpr ⟨_, hline, rfl⟩)
    simpa [Line.text] using hname
  | number n =>
    have hnumber : '\n' ∉ (toString n).toList := not_mem_toString (by decide) (by decide) n
    rw [Line.text, String.toList_append, List.mem_append, not_or]
    exact ⟨by decide, hnumber⟩
  | compute t c j => exact not_mem_compute (by decide) t.text_mem c.text_mem j.text_mem

theorem newline_not_mem_labelsOf {g g' : Generator} {c : Command} {body : List Line}
    (hunit : '\n' ∉ g.unit.toList) (hc : c.Readable) (h : g.lower c = .ok (body, g')) :
    ∀ s ∈ labelsOf body, '\n' ∉ s.toList := by
  cases c with
  | arithmetic op =>
    have hlabel : '\n' ∉ (Generator.comparisonLabel g.unit (g.comparisons + 1)).toList := by
      have hnumber : '\n' ∉ (toString (g.comparisons + 1)).toList :=
        not_mem_toString (by decide) (by decide) ((g.comparisons + 1 : Nat) : Int)
      rw [Generator.comparisonLabel, String.toList_append, String.toList_append, List.mem_append,
        List.mem_append, not_or, not_or]
      exact ⟨⟨hunit, by decide⟩, hnumber⟩
    cases op with
    | eq | gt | lt =>
      cases h
      exact List.forall_mem_singleton.mpr hlabel
    | _ =>
      cases h
      exact List.forall_mem_nil _
  | push segment n =>
    rw [labelsOf_push (Generator.eq_of_map_eq_ok h).1]
    exact List.forall_mem_nil _
  | pop segment n =>
    rw [labelsOf_pop (Generator.eq_of_map_eq_ok h).1]
    exact List.forall_mem_nil _
  | label name =>
    cases h
    exact List.forall_mem_singleton.mpr hc.newline_not_mem
  | function name n =>
    cases h
    have hlabels : labelsOf (Sequence.function name n) =
        [name, Sequence.localsLoop name, Sequence.localsEnd name] := rfl
    rw [hlabels]
    have hloop : IsSymbol (Sequence.localsLoop name) := hc.1.append rfl
    have hend : IsSymbol (Sequence.localsEnd name) := hc.1.append rfl
    simp only [List.forall_mem_cons]
    exact ⟨hc.1.newline_not_mem, hloop.newline_not_mem, hend.newline_not_mem,
      List.forall_mem_nil _⟩
  | call callee n back =>
    cases h
    have hlabels : labelsOf (Sequence.call callee n back) = [back] := rfl
    rw [hlabels]
    exact List.forall_mem_singleton.mpr hc.2.2.newline_not_mem
  | goto name | ifGoto name | ret =>
    cases h
    exact List.forall_mem_nil _

/-- The code of a command is written in lines, whatever else the name of its unit has in it. -/
theorem newline_not_mem_of_lower {g g' : Generator} {c : Command} {body : List Line}
    (hunit : '\n' ∉ g.unit.toList) (hc : c.Readable) (h : g.lower c = .ok (body, g')) :
    ∀ line ∈ body, '\n' ∉ line.text.toList := by
  have hlabels := newline_not_mem_labelsOf hunit hc h
  refine newline_not_mem_text (fun s hs => ?_) hlabels
  rcases referencesOf_cases h hs with hregister | hstatic | htarget | hlabel
  · have hall : ∀ s ∈ registerSymbols, '\n' ∉ s.toList := by decide
    exact hall s hregister
  · obtain ⟨n, -, rfl⟩ := Option.map_eq_some_iff.mp hstatic
    have hsymbol := StaticScope.mem_symbol_iff (c := '\n') (by decide) (by decide) (by decide)
      g.statics g.unit n
    exact fun hmem => hunit (hsymbol.mp hmem).2
  · cases c with
    | goto name | ifGoto name =>
      obtain rfl := Option.some.inj htarget
      exact hc.newline_not_mem
    | call callee n back =>
      obtain rfl := Option.some.inj htarget
      exact hc.1.newline_not_mem
    | _ => cases htarget
  · exact hlabels s hlabel

namespace IsProgramCode

variable {scope : StaticScope} {units : List (String × String)} {parts : List (List Coded)}

theorem newline_not_mem_lines (h : IsProgramCode scope units parts)
    (hunits : ∀ u ∈ units, '\n' ∉ u.1.toList) (comments : Bool) :
    ∀ b ∈ parts.flatten.map Coded.block, ∀ l ∈ b.lines comments, '\n' ∉ l.toList := by
  rw [List.forall_mem_map]
  intro c hc
  obtain ⟨g, g', -, -, -, hlower, hg, -, hmem, -⟩ := h.exists_of_mem c hc
  obtain ⟨u, hu, hunit⟩ := List.mem_map.mp hmem
  have hcommand := h.readable_command c hc
  have hname : '\n' ∉ g.unit.toList := by
    rw [← hg, ← hunit]
    exact hunits u hu
  exact Block.newline_not_mem_lines (newline_not_mem_of_lower hname hcommand hlower)
    hcommand.isOneLine_text.not_mem comments

/-! ## The label of the loop -/

/-- No unit writes the label of the loop at the end, and none gets it. -/
theorem haltLabel_not_mem_labels (h : IsProgramCode scope units parts) :
    Bootstrap.haltLabel ∉ Block.labels (parts.flatten.map Coded.block) := by
  have htext : startInvention.text = Bootstrap.haltLabel := by decide
  rw [(HackVm.perm_labels parts.flatten).mem_iff, List.mem_append, ← htext]
  rintro (hwritten | hinvented)
  · exact h.startInvention_not_mem_written hwritten
  · rw [h.flatMap_invented, List.mem_map] at hinvented
    obtain ⟨l, hl, htext'⟩ := hinvented
    obtain rfl := InventedLabel.text_injective htext'
    obtain ⟨u, hu, hmem⟩ := List.mem_flatMap.mp hl
    -- a return address with this owner would come from a function of this name
    rcases belongs_of_mem_inventions hmem with hdeclared | ⟨s, hs, -⟩
    · exact not_isName_bootstrap (h.isName_of_mem (List.mem_flatMap.mpr ⟨u, hu, hdeclared⟩))
    · cases hs

/-- The text of a program with a start is the lines of the start, which put down the label of the
loop once, and lines that do not. -/
theorem exists_textLines (h : IsProgramCode scope units parts)
    (hunits : ∀ u ∈ units, '\n' ∉ u.1.toList) (comments : Bool) {entry : String}
    (hentry : IsSymbol entry) :
    ∃ rest, textLines (Block.text comments
          (startBlocks entry true ++ parts.flatten.map Coded.block)) =
        (Bootstrap.block entry).lines comments ++ rest ∧
      ((Bootstrap.block entry).lines comments).count (Line.label Bootstrap.haltLabel).text = 1 ∧
      rest.count (Line.label Bootstrap.haltLabel).text = 0 := by
  have hstart : startBlocks entry true = [Bootstrap.block entry] := rfl
  refine ⟨(parts.flatten.map Coded.block).flatMap (Block.lines comments) ++ [""], ?_, ?_, ?_⟩
  · rw [hstart, List.singleton_append, textLines_text comments (List.cons_ne_nil _ _),
      List.flatMap_cons, List.append_assoc]
    exact List.forall_mem_cons.mpr ⟨(Bootstrap.readable_block hentry).not_mem_lines comments,
      h.newline_not_mem_lines hunits comments⟩
  · rw [Block.count_label_lines]
    have hlabels : labelsOf (Bootstrap.block entry).body = [Bootstrap.haltLabel] := rfl
    rw [hlabels, List.count_singleton_self]
  · have hempty : (Line.label Bootstrap.haltLabel).text ∉ [""] := by decide
    rw [List.count_append, Block.count_label_flatMap_lines,
      List.count_eq_zero.mpr h.haltLabel_not_mem_labels, List.count_eq_zero.mpr hempty]

end IsProgramCode

/-! ## The memory behind the start -/

/-- A function without arguments has been called on an empty stack, and is to return to `back`. -/
structure Ram.Started (m : Ram) (back : Word16) (before : Ram) : Prop where
  sp : m.sp = 261
  locals : m Base.locals.cell = 261
  arguments : m Base.arguments.cell = 256
  frame : m.FrameAt 256 back before
  others : ∀ x : Word16, 3 ≤ x.toNat → x.toNat < 256 ∨ 261 ≤ x.toNat → m x = before x

theorem Ram.started_start (m : Ram) (haltAddress : Nat) :
    (m.start haltAddress).Started (BitVec.ofNat 16 haltAddress) m := by
  have hsp : (m.set Cell.stackPointer (BitVec.ofNat 16 Memory.stackBase)).sp = 256 :=
    Ram.set_self _ _ _
  have words : (m.set Cell.stackPointer (BitVec.ofNat 16 Memory.stackBase)).HasWords 0 := by
    rw [Ram.HasWords, hsp]
    decide
  have room : (m.set Cell.stackPointer (BitVec.ofNat 16 Memory.stackBase)).HasRoom 5 := by
    rw [Ram.HasRoom, hsp]
    decide
  obtain ⟨hframe, hsp', hlocals, harguments, hothers⟩ :=
    Ram.enter_apply words room (BitVec.ofNat 16 haltAddress) 0
  rw [hsp] at hframe hsp' hlocals harguments hothers
  -- setting the stack pointer leaves the bases of the caller alone
  have hbase : ∀ b : Base, (m.set Cell.stackPointer (BitVec.ofNat 16 Memory.stackBase)) b.cell =
      m b.cell := fun b => Ram.set_of_ne _ _ b.cell_ne.1
  refine ⟨hsp', hlocals, harguments, ⟨hframe.returnAddress, ?_, ?_, ?_, ?_⟩, fun x hlow hx => ?_⟩
  · exact hframe.locals.trans (hbase .locals)
  · exact hframe.arguments.trans (hbase .arguments)
  · exact hframe.this.trans (hbase .this)
  · exact hframe.that.trans (hbase .that)
  have hne : ∀ w : Word16, w.toNat < 3 → x ≠ w := by
    rintro w hw rfl
    omega
  rw [← Ram.set_of_ne m (BitVec.ofNat 16 Memory.stackBase) (hne Cell.stackPointer (by decide))]
  refine hothers x (hne _ (by decide)) (hne _ (by decide)) (hne _ (by decide)) fun k hk => ?_
  rintro rfl
  have hnat : ((256 : Word16) + BitVec.ofNat 16 k).toNat = 256 + k := by
    rw [BitVec.toNat_add, BitVec.toNat_ofNat]
    show (256 + k % 2 ^ 16) % 2 ^ 16 = 256 + k
    omega
  omega

/-! ## A loop that jumps to itself -/

/-- The processor is in a loop of two instructions at `i`, in which `s` has been. -/
structure Cpu.LoopsAt (i : Nat) (s t : Cpu) : Prop where
  pc : t.pc = i ∨ t.pc = i + 1 ∧ t.a.toNat = i
  ram : t.ram = s.ram
  d : t.d = s.d

theorem Cpu.step_loop {σ : Symbols} {rom : Rom} {i : Nat} {name : String}
    (h : Placed σ rom i (Sequence.goto name)) (hname : (σ name).toNat = i) {s t : Cpu}
    (ht : Cpu.LoopsAt i s t) : ∃ t', t.step rom = some t' ∧ Cpu.LoopsAt i s t' := by
  obtain ⟨hload, -, hjump, -⟩ := h
  have hfirst : rom[i]? = some (.load (σ name)) := hload _ rfl
  have hsecond : rom[i + 1]? = some (.compute .none .zero .always) := hjump _ rfl
  rcases ht.pc with hpc | ⟨hpc, ha⟩
  · refine ⟨t.execute (.load (σ name)), ?_, .inr ⟨?_, hname⟩, ht.ram, ht.d⟩
    · rw [Cpu.step, hpc, hfirst]
      rfl
    · rw [← hpc]
      rfl
  · refine ⟨t.execute (.compute .none .zero .always), ?_, .inl ha, ht.ram, ht.d⟩
    rw [Cpu.step, hpc, hsecond]
    rfl

/-- A loop that jumps to itself is never left. -/
theorem Cpu.run_loop {σ : Symbols} {rom : Rom} {i : Nat} {name : String}
    (h : Placed σ rom i (Sequence.goto name)) (hname : (σ name).toNat = i) {s t : Cpu}
    (ht : Cpu.LoopsAt i s t) (n : Nat) : ∃ t', t.run rom n = some t' ∧ Cpu.LoopsAt i s t' := by
  induction n generalizing t with
  | zero => exact ⟨t, rfl, ht⟩
  | succ n ih =>
    obtain ⟨u, hstep, hu⟩ := Cpu.step_loop h hname ht
    obtain ⟨t', hrun, ht'⟩ := ih hu
    refine ⟨t', ?_, ht'⟩
    rw [Cpu.run, hstep]
    exact hrun

/-! ## Programs with a start -/

theorem labelsOf_programCode (entry : String) (codes : List Coded) :
    labelsOf (programCode entry codes) =
      Block.labels (startBlocks entry true ++ codes.map Coded.block) := by
  rw [← labelsOf_flatMap_body, List.flatMap_append, List.flatMap_map]
  rfl

/-- A program with a start puts the label of its loop at the end down once, in the block of the
start. If the units have symbols for names and an assembler accepts the code, the processor comes
from address 0 with any contents to the entry function, which finds one frame on the stack, and
from the loop at the end it goes nowhere else. -/
theorem starts_and_halts {settings : Settings} {units : List (String × String)} {text : String}
    (hunits : ∀ u ∈ units, '\n' ∉ u.1.toList)
    (h : (translateUnits settings units true).result = .ok text) :
    ∃ entry, settings.entry = .given entry ∧
      (∃ rest, textLines text = (Bootstrap.block entry).lines settings.comments ++ rest ∧
        ((Bootstrap.block entry).lines settings.comments).count "($bootstrap$ret.0)" = 1 ∧
        rest.count "($bootstrap$ret.0)" = 0) ∧
      ((∀ u ∈ units, IsSymbol u.1) →
        ∃ code, readAssembly text = some code ∧
          (Assemblable code →
            ∃ halt start, address? Bootstrap.haltLabel code = some halt ∧
              address? entry code = some start ∧
              (∀ cpu : Cpu, cpu.pc = 0 → ∃ cpu', Cpu.Reaches (assemble code) cpu cpu' ∧
                cpu'.pc = start ∧ cpu'.ram.Started (BitVec.ofNat 16 halt) cpu.ram) ∧
              ∀ cpu : Cpu, cpu.pc = halt → ∀ n, ∃ cpu', cpu.run (assemble code) n = some cpu' ∧
                (cpu'.pc = halt ∨ cpu'.pc = halt + 1) ∧ cpu'.ram = cpu.ram ∧ cpu'.d = cpu.d)) := by
  obtain ⟨scope, parts, hscope, hparts, hentry, rfl⟩ := translateUnits_eq_ok_iff.mp h
  obtain ⟨entry, hgiven, hdeclared⟩ := hentry rfl
  have htext : settings.entry.text = entry := by rw [hgiven]; rfl
  have hsymbol : IsSymbol entry := (hparts.isName_of_mem hdeclared).isSymbol
  rw [htext]
  refine ⟨entry, hgiven, hparts.exists_textLines hunits settings.comments hsymbol,
    fun hsymbols => ⟨_, readAssembly_of_isProgramCode _ hparts hsymbols hsymbol,
      fun assemblable => ?_⟩⟩
  have hplaced : Placed (symbolsOf (programCode entry parts.flatten))
      (assemble (programCode entry parts.flatten)) 0 (Bootstrap.code entry) :=
    (placed_append.mp (placed_assemble assemblable)).1
  have hentry : entry ∈ labelsOf (programCode entry parts.flatten) := by
    rw [labelsOf_programCode, hparts.mem_labels_iff]
    exact .inl hdeclared
  have hloop : Bootstrap.haltLabel ∈ labelsOf (programCode entry parts.flatten) := by
    rw [programCode, labelsOf_append]
    exact List.mem_append_left _ List.mem_cons_self
  obtain ⟨start, hstart, hstart'⟩ := assemblable.exists_address hentry
  obtain ⟨halt, hhalt, hhalt'⟩ := assemblable.exists_address hloop
  have haddress := Bootstrap.toNat_haltLabel hplaced
  rw [hhalt'] at haddress
  refine ⟨halt, start, hhalt, hstart, fun cpu hpc => ?_, fun cpu hpc n => ?_⟩
  · obtain ⟨cpu', hreaches, hpc', hram⟩ := Bootstrap.leads_code (standard_symbolsOf _) hplaced
      cpu.ram cpu hpc rfl
    refine ⟨cpu', hreaches, hpc'.trans hstart', ?_⟩
    rw [hram, ← haddress]
    exact Ram.started_start cpu.ram halt
  · rw [Bootstrap.code_eq] at hplaced
    obtain ⟨-, hgoto⟩ := placed_append.mp hplaced
    rw [Nat.zero_add, ← haddress] at hgoto
    obtain ⟨cpu', hrun, hcpu'⟩ := Cpu.run_loop hgoto hhalt' ⟨.inl hpc, rfl, rfl⟩ n
    exact ⟨cpu', hrun, hcpu'.pc.imp_right And.left, hcpu'.ram, hcpu'.d⟩

/-- A program whose entry function is empty. Behind the call, at address 53, the processor is still
in the loop after a thousand steps. -/
theorem starts_and_halts_emptyFunction :
    ∃ text code, (translateUnits { entry := .given "Sys.init" } [("Sys", "function Sys.init 0")]
        true).result = .ok text ∧
      (textLines text).count "($bootstrap$ret.0)" = 1 ∧ readAssembly text = some code ∧
      (∃ cpu', Cpu.Reaches (assemble code) ⟨1, 2, 0, fun _ => 3⟩ cpu' ∧ cpu'.pc = 55 ∧
        cpu'.ram.sp = 261 ∧ cpu'.ram 256 = 53 ∧ cpu'.ram 257 = 3 ∧ cpu'.ram 300 = 3) ∧
      ∃ cpu', Cpu.run (assemble code) 1000 ⟨1, 2, 53, fun _ => 3⟩ = some cpu' ∧ cpu'.d = 2 := by
  have hread : readUnit "function Sys.init 0" "Sys" =
      .ok [⟨.function "Sys.init" 0, ⟨0, 0⟩⟩] := by cbv
  have hunit : IsUnitCode .unit "Sys" "function Sys.init 0"
      [⟨"Sys", .function "Sys.init" 0, Sequence.function "Sys.init" 0⟩] :=
    ⟨_, hread, rfl, .cons rfl rfl (.nil _)⟩
  have hparts : IsProgramCode .unit [("Sys", "function Sys.init 0")]
      [[⟨"Sys", .function "Sys.init" 0, Sequence.function "Sys.init" 0⟩]] := .cons hunit .nil
  have hdeclared : "Sys.init" ∈ [("Sys", "function Sys.init 0")].flatMap
      (fun u => declaredIn u.1 u.2) := by
    rw [← hparts.declarations]
    decide
  have hresult := @translateUnits_eq_ok_iff { entry := .given "Sys.init" } _ true _ |>.mpr
    ⟨.unit, _, rfl, hparts, fun _ => ⟨_, rfl, hdeclared⟩, rfl⟩
  obtain ⟨entry, hentry, ⟨rest, hlines, hstart, hrest⟩, hruns⟩ :=
    starts_and_halts (by decide) hresult
  obtain rfl : "Sys.init" = entry := Setting.given.inj hentry
  obtain ⟨code, hcode, hruns⟩ := hruns (by decide)
  have hsymbol : IsSymbol "Sys.init" := by decide
  have hprogram := readAssembly_of_isProgramCode true hparts (by decide) hsymbol
  obtain rfl := Option.some.inj (hcode.symm.trans hprogram)
  obtain ⟨halt, start, hhalt, hstartAddress, hstarts, hhalts⟩ := hruns (by decide +kernel)
  obtain rfl : 53 = halt := by
    refine Option.some.inj (Eq.trans ?_ hhalt)
    decide +kernel
  obtain rfl : 55 = start := by
    refine Option.some.inj (Eq.trans ?_ hstartAddress)
    decide +kernel
  refine ⟨_, _, hresult, ?_, hcode, ?_, ?_⟩
  · rw [hlines, List.count_append, hstart, hrest]
  · obtain ⟨cpu', hreaches, hpc, started⟩ := hstarts ⟨1, 2, 0, fun _ => 3⟩ rfl
    exact ⟨cpu', hreaches, hpc, started.sp, started.frame.returnAddress, started.frame.locals,
      started.others 300 (by decide) (by decide)⟩
  · obtain ⟨cpu', hrun, -, -, hd⟩ := hhalts ⟨1, 2, 53, fun _ => 3⟩ rfl 1000
    exact ⟨cpu', hrun, hd⟩

end HackVm
