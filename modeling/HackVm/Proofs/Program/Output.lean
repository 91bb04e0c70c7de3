import HackVm.Proofs.Machine.AssemblyText
import HackVm.Proofs.Program.Code

set_option autoImplicit false

/-! # Reading back what is written

An assembler takes the text of a translated program apart into the lines it was made from
(`readAssembly_of_isProgramCode`). Names in a program are symbols to an assembler, and what is
made of them by appending is too; the names of units are not checked by anyone, so that they are
symbols is asked for. -/

namespace HackVm

open Text

theorem IsName.isSymbol {s : String} (h : IsName s) : IsSymbol s := by
  obtain ⟨c, cs, hs, hc, hcs⟩ := h
  have hparts : (c :: cs).all isSymbolPart = true := by
    rw [List.all_eq_true]
    intro d hd
    rcases List.mem_cons.mp hd with rfl | hd
    · exact isSymbolPart_of_isNamePart (isNamePart_of_isAlpha hc)
    · exact isSymbolPart_of_isNamePart (hcs d hd)
  rw [IsSymbol, hs]
  exact Bool.and_eq_true_iff.mpr ⟨by rw [isDigit_eq_false_of_isAlpha hc]; rfl, hparts⟩

theorem all_isSymbolPart_toString (n : Nat) :
    (toString n).toList.all isSymbolPart = true := by
  refine List.all_eq_true.mpr fun c hc => ?_
  rw [isSymbolPart, isDigit_of_mem_toString hc]
  rfl

/-! ## Commands -/

/-- The names in a command are symbols, and its numbers are not negative. -/
def Command.Readable : Command → Prop
  | .arithmetic _ | .ret => True
  | .push _ n | .pop _ n => 0 ≤ n
  | .label name | .goto name | .ifGoto name => IsSymbol name
  | .function name n => IsSymbol name ∧ 0 ≤ n
  | .call callee n back => IsSymbol callee ∧ 0 ≤ n ∧ IsSymbol back

theorem Scope.isSymbol_qualify {s : Scope} {name : String} (hs : IsSymbol s.function)
    (hname : IsSymbol name) : IsSymbol (s.qualify name) :=
  (hs.append rfl).append hname.all

theorem Scope.isSymbol_returnAddress {s : Scope} (hs : IsSymbol s.function) :
    IsSymbol s.returnAddress :=
  (hs.append rfl).append (all_isSymbolPart_toString s.calls)

/-- What an instruction is completed to can be read, and so can what follows in its scope. -/
theorem readable_of_resolve {i : Instruction} {scope scope' : Option Scope} {c : Command}
    (named : i.Named) (h : i.resolve scope = .ok (c, scope'))
    (hscope : ∀ s ∈ scope, IsSymbol s.function) :
    c.Readable ∧ ∀ s ∈ scope', IsSymbol s.function := by
  cases i with
  | arithmetic op =>
    cases h
    exact ⟨trivial, hscope⟩
  | push segment n | pop segment n =>
    cases h
    exact ⟨Int.natCast_nonneg n, hscope⟩
  | function name n =>
    cases h
    refine ⟨⟨named.isSymbol, Int.natCast_nonneg n⟩, ?_⟩
    rintro s ⟨⟩
    exact named.isSymbol
  | label name | goto name | ifGoto name =>
    cases scope with
    | none => cases h
    | some s =>
      cases h
      exact ⟨Scope.isSymbol_qualify (hscope s rfl) named.isSymbol, hscope⟩
  | call callee n =>
    cases scope with
    | none => cases h
    | some s =>
      cases h
      refine ⟨⟨named.isSymbol, Int.natCast_nonneg n, Scope.isSymbol_returnAddress (hscope s rfl)⟩,
        ?_⟩
      rintro t ⟨⟩
      exact hscope s rfl
  | ret =>
    cases scope with
    | none => cases h
    | some s =>
      cases h
      exact ⟨trivial, hscope⟩

theorem Scoped.readable {scope : Option Scope} {cs : List Command} (h : Scoped scope cs)
    (hscope : ∀ s ∈ scope, IsSymbol s.function) : ∀ c ∈ cs, c.Readable := by
  induction h with
  | nil scope =>
    intro c hc
    cases hc
  | @cons scope scope' i c cs named resolved others ih =>
    obtain ⟨hc, hscope'⟩ := readable_of_resolve named resolved hscope
    intro d hd
    rcases List.mem_cons.mp hd with rfl | hd
    · exact hc
    · exact ih hscope' d hd

/-! ## Single lines -/

/-- Among blanks only spaces stay within a line, whatever ends a line. -/
def isLinePart (c : Char) : Bool := !isBlank c || c == ' '

/-- A text that is one line. -/
def IsOneLine (s : String) : Prop := s.toList.all isLinePart = true

instance (s : String) : Decidable (IsOneLine s) := inferInstanceAs (Decidable (_ = true))

theorem IsOneLine.not_mem {s : String} (h : IsOneLine s) : '\n' ∉ s.toList :=
  fun hmem => absurd (List.all_eq_true.mp h _ hmem) (by decide)

theorem isOneLine_append {s t : String} : IsOneLine (s ++ t) ↔ IsOneLine s ∧ IsOneLine t := by
  rw [IsOneLine, String.toList_append, List.all_append, Bool.and_eq_true]
  rfl

theorem isOneLine_of_all_isSymbolPart {s : String} (h : s.toList.all isSymbolPart = true) :
    IsOneLine s := by
  refine List.all_eq_true.mpr fun c hc => ?_
  have hplain := isPlain_of_isSymbolPart (List.all_eq_true.mp h c hc)
  rw [isPlain, Bool.and_eq_true] at hplain
  rw [isLinePart, hplain.1]
  rfl

theorem IsSymbol.newline_not_mem {s : String} (h : IsSymbol s) : '\n' ∉ s.toList :=
  (isOneLine_of_all_isSymbolPart h.all).not_mem

/-- A command is written on one line. -/
theorem Command.Readable.isOneLine_text {c : Command} (h : c.Readable) : IsOneLine c.text := by
  have hnumber : ∀ n : Int, 0 ≤ n → IsOneLine (toString n) := by
    intro n hn
    obtain ⟨k, rfl⟩ := Int.eq_ofNat_of_zero_le hn
    exact isOneLine_of_all_isSymbolPart (all_isSymbolPart_toString k)
  have hname : ∀ name, IsSymbol name → IsOneLine name :=
    fun name hs => isOneLine_of_all_isSymbolPart hs.all
  have hsegment : ∀ segment : Segment, IsOneLine segment.keyword := by
    intro segment
    cases segment with
    | based base => cases base <;> decide
    | _ => decide
  cases c with
  | arithmetic op => cases op <;> decide
  | ret => decide
  | push segment n | pop segment n =>
    simp only [Command.text, isOneLine_append]
    exact ⟨⟨⟨by decide, hsegment segment⟩, by decide⟩, hnumber n h⟩
  | label name | goto name | ifGoto name =>
    simp only [Command.text, isOneLine_append]
    exact ⟨by decide, hname name h⟩
  | function name n =>
    simp only [Command.text, isOneLine_append]
    exact ⟨⟨⟨by decide, hname name h.1⟩, by decide⟩, hnumber n h.2⟩
  | call callee n back =>
    simp only [Command.text, isOneLine_append]
    exact ⟨⟨⟨by decide, hname callee h.1⟩, by decide⟩, hnumber n h.2.1⟩

/-! ## Code sequences -/

/-- A code that an assembler can read. -/
def ReadableCode (code : List Line) : Prop := ∀ line ∈ code, line.Readable

@[simp] theorem readableCode_nil : ReadableCode [] := List.forall_mem_nil _

@[simp] theorem readableCode_cons {line : Line} {code : List Line} :
    ReadableCode (line :: code) ↔ line.Readable ∧ ReadableCode code :=
  List.forall_mem_cons

@[simp] theorem readableCode_append {xs ys : List Line} :
    ReadableCode (xs ++ ys) ↔ ReadableCode xs ∧ ReadableCode ys :=
  List.forall_mem_append

@[simp] theorem readable_symbol {name : String} : (Line.symbol name).Readable ↔ IsSymbol name :=
  .rfl

@[simp] theorem readable_number {n : Int} : (Line.number n).Readable ↔ 0 ≤ n := .rfl

@[simp] theorem readable_label {name : String} : (Line.label name).Readable ↔ IsSymbol name :=
  .rfl

@[simp] theorem readable_assign (t : Destination) (c : Computation) :
    (Line.assign t c).Readable := trivial

@[simp] theorem readable_jump (c : Computation) (j : Jump) : (Line.jump c j).Readable := trivial

@[simp] theorem isSymbol_stackPointer : IsSymbol Memory.stackPointer := by decide

@[simp] theorem isSymbol_scratchFrame : IsSymbol Memory.scratchFrame := by decide

@[simp] theorem isSymbol_scratchAddress : IsSymbol Memory.scratchAddress := by decide

@[simp] theorem isSymbol_scratchReturn : IsSymbol Memory.scratchReturn := by decide

@[simp] theorem isSymbol_base (b : Base) : IsSymbol b.symbol := by cases b <;> decide

namespace Sequence

@[simp] theorem readable_pushD : ReadableCode pushD := by simp [pushD, atStackPointer]

@[simp] theorem readable_popD : ReadableCode popD := by simp [popD, atStackPointer]

theorem readable_comparison {label : String} (condition : Jump) (h : IsSymbol label) :
    ReadableCode (comparison condition label) := by
  simp [comparison, atStackPointer, h]

theorem readable_pushCell {symbol : String} (h : IsSymbol symbol) :
    ReadableCode (pushCell symbol) := by
  simp [pushCell, h]

theorem readable_popCell {symbol : String} (h : IsSymbol symbol) :
    ReadableCode (popCell symbol) := by
  simp [popCell, h]

theorem readable_pushBased (base : Base) {n : Int} (h : 0 ≤ n) :
    ReadableCode (pushBased base n) := by
  simp [pushBased, h]

theorem readable_popBased (base : Base) {n : Int} (h : 0 ≤ n) :
    ReadableCode (popBased base n) := by
  simp [popBased, h]

theorem readable_function {name : String} {n : Int} (hname : IsSymbol name) (h : 0 ≤ n) :
    ReadableCode (function name n) := by
  have hloop : IsSymbol (localsLoop name) := hname.append rfl
  have hend : IsSymbol (localsEnd name) := hname.append rfl
  simp [function, atStackPointer, hname, hloop, hend, h]

theorem readable_call {callee back : String} {n : Int} (hcallee : IsSymbol callee)
    (h : 0 ≤ n) (hback : IsSymbol back) : ReadableCode (call callee n back) := by
  simp [call, atStackPointer, Base.all, pushCell, hcallee, h, hback, Memory.frameSize]

theorem readable_ret : ReadableCode ret := by
  simp [ret, restore, atStackPointer, Base.all, Memory.frameSize]

end Sequence

theorem isSymbol_pointerCell {n : Int} {symbol : String}
    (h : Memory.pointerCell n = .ok symbol) : IsSymbol symbol := by
  unfold Memory.pointerCell at h
  split at h
  · cases h
    exact isSymbol_base _
  · cases h

theorem isSymbol_tempCell {n : Int} {symbol : String}
    (h : Memory.tempCell n = .ok symbol) : IsSymbol symbol := by
  unfold Memory.tempCell at h
  split at h
  · cases h
    exact IsSymbol.append (s := "R") (by decide) (all_isSymbolPart_toString _)
  · cases h

theorem StaticScope.isSymbol_symbol {scope : StaticScope} {unit : String} {n : Int}
    (hunit : IsSymbol unit) (h : 0 ≤ n) : IsSymbol (scope.symbol unit n) := by
  obtain ⟨k, rfl⟩ := Int.eq_ofNat_of_zero_le h
  cases scope with
  | unit => exact (hunit.append rfl).append (all_isSymbolPart_toString k)
  | global => exact IsSymbol.append (s := "Static.") (by decide) (all_isSymbolPart_toString k)

/-! ## Lowered commands -/

namespace Generator

variable {g g' : Generator} {segment : Segment} {n : Int} {body : List Line}

theorem readable_push (hunit : IsSymbol g.unit) (hn : 0 ≤ n) (h : g.push segment n = .ok body) :
    ReadableCode body := by
  cases segment with
  | based base =>
    cases h
    exact Sequence.readable_pushBased base hn
  | constant =>
    cases h
    simp [Sequence.pushConstant, hn]
  | static =>
    cases h
    exact Sequence.readable_pushCell (StaticScope.isSymbol_symbol hunit hn)
  | pointer =>
    obtain ⟨symbol, hsymbol, rfl⟩ := exists_of_map_mapError h
    exact Sequence.readable_pushCell (isSymbol_pointerCell hsymbol)
  | temp =>
    obtain ⟨symbol, hsymbol, rfl⟩ := exists_of_map_mapError h
    exact Sequence.readable_pushCell (isSymbol_tempCell hsymbol)

theorem readable_pop (hunit : IsSymbol g.unit) (hn : 0 ≤ n) (h : g.pop segment n = .ok body) :
    ReadableCode body := by
  cases segment with
  | based base =>
    cases h
    exact Sequence.readable_popBased base hn
  | constant => cases h
  | static =>
    cases h
    exact Sequence.readable_popCell (StaticScope.isSymbol_symbol hunit hn)
  | pointer =>
    obtain ⟨symbol, hsymbol, rfl⟩ := exists_of_map_mapError h
    exact Sequence.readable_popCell (isSymbol_pointerCell hsymbol)
  | temp =>
    obtain ⟨symbol, hsymbol, rfl⟩ := exists_of_map_mapError h
    exact Sequence.readable_popCell (isSymbol_tempCell hsymbol)

theorem readable_arithmetic (hunit : IsSymbol g.unit) (op : Operation) :
    ReadableCode (g.arithmetic op).1 := by
  have hlabel : IsSymbol (comparisonLabel g.unit (g.comparisons + 1)) :=
    (hunit.append rfl).append (all_isSymbolPart_toString _)
  cases op with
  | add | sub | and | or => simp [arithmetic, Sequence.binary]
  | neg | not => simp [arithmetic, Sequence.unary, Sequence.atStackPointer]
  | eq | gt | lt => exact Sequence.readable_comparison _ hlabel

/-- The code of a command can be read if the command can. -/
theorem readable_lower {c : Command} (hunit : IsSymbol g.unit) (hc : c.Readable)
    (h : g.lower c = .ok (body, g')) : ReadableCode body := by
  cases c with
  | arithmetic op =>
    obtain ⟨hbody, -⟩ := Prod.mk.inj (Except.ok.inj h)
    rw [← hbody]
    exact readable_arithmetic hunit op
  | push segment n => exact readable_push hunit hc (Generator.eq_of_map_eq_ok h).1
  | pop segment n => exact readable_pop hunit hc (Generator.eq_of_map_eq_ok h).1
  | label name =>
    cases h
    exact readableCode_cons.mpr ⟨hc, readableCode_nil⟩
  | goto name =>
    cases h
    exact readableCode_cons.mpr ⟨hc, by simp⟩
  | ifGoto name =>
    cases h
    exact readableCode_append.mpr ⟨by simp, readableCode_cons.mpr ⟨hc, by simp⟩⟩
  | function name n =>
    cases h
    exact Sequence.readable_function hc.1 hc.2
  | call callee n back =>
    cases h
    exact Sequence.readable_call hc.1 hc.2.1 hc.2.2
  | ret =>
    cases h
    exact Sequence.readable_ret

end Generator

theorem isSymbol_haltLabel : IsSymbol Bootstrap.haltLabel := by decide

theorem Bootstrap.isOneLine_header {entry : String} (h : IsSymbol entry) :
    IsOneLine (Bootstrap.block entry).header :=
  isOneLine_append.mpr ⟨by decide, isOneLine_of_all_isSymbolPart h.all⟩

theorem Bootstrap.readable_block {entry : String} (h : IsSymbol entry) :
    (Bootstrap.block entry).Readable where
  body := by
    have hcall : ReadableCode (Sequence.call entry 0 haltLabel) :=
      Sequence.readable_call h (Int.le_refl 0) isSymbol_haltLabel
    have hcode : ReadableCode (Bootstrap.code entry) := by
      simp [Bootstrap.code, Sequence.goto, Sequence.atStackPointer, Memory.stackBase, hcall,
        isSymbol_haltLabel]
    exact hcode
  header := (isOneLine_header h).not_mem

/-! ## Programs -/

theorem IsUnitCode.readable_command {scope : StaticScope} {unit source : String}
    {codes : List Coded} (h : IsUnitCode scope unit source codes) :
    ∀ c ∈ codes, c.command.Readable := by
  intro c hc
  -- a unit begins outside of any function
  refine h.scoped.readable ?_ c.command (List.mem_map_of_mem hc)
  rintro s ⟨⟩

theorem IsUnitCode.readable {scope : StaticScope} {unit source : String} {codes : List Coded}
    (h : IsUnitCode scope unit source codes) (hunit : IsSymbol unit) :
    ∀ c ∈ codes, c.command.Readable ∧ c.block.Readable := by
  intro c hc
  obtain ⟨g, g', -, -, -, hlower, hg, -⟩ := h.exists_of_mem c hc
  have hcommand := h.readable_command c hc
  exact ⟨hcommand, Generator.readable_lower (hg ▸ hunit) hcommand hlower,
    hcommand.isOneLine_text.not_mem⟩

section

variable {scope : StaticScope} {units : List (String × String)} {parts : List (List Coded)}

theorem IsProgramCode.readable_command (h : IsProgramCode scope units parts) :
    ∀ c ∈ parts.flatten, c.command.Readable := by
  induction h with
  | nil => exact List.forall_mem_nil _
  | cons hunit hothers ih =>
    rw [List.flatten_cons]
    exact List.forall_mem_append.mpr ⟨hunit.readable_command, ih⟩

theorem IsProgramCode.readable (h : IsProgramCode scope units parts)
    (hunits : ∀ u ∈ units, IsSymbol u.1) :
    ∀ c ∈ parts.flatten, c.command.Readable ∧ c.block.Readable := by
  induction h with
  | nil => exact List.forall_mem_nil _
  | @cons u codes units parts hunit hothers ih =>
    obtain ⟨hu, hrest⟩ := List.forall_mem_cons.mp hunits
    rw [List.flatten_cons]
    exact List.forall_mem_append.mpr ⟨hunit.readable hu, ih hrest⟩

end

/-- The lines of a program that starts with a call of `entry`. -/
def programCode (entry : String) (codes : List Coded) : List Line :=
  Bootstrap.code entry ++ codes.flatMap Coded.body

/-- The text of a program with a start reads back as its lines. -/
theorem readAssembly_of_isProgramCode {scope : StaticScope} {units : List (String × String)}
    {parts : List (List Coded)} (comments : Bool) {entry : String}
    (h : IsProgramCode scope units parts) (hunits : ∀ u ∈ units, IsSymbol u.1)
    (hentry : IsSymbol entry) :
    readAssembly (Block.text comments
        (startBlocks entry true ++ parts.flatten.map Coded.block)) =
      some (programCode entry parts.flatten) := by
  have hbodies : (parts.flatten.map Coded.block).flatMap Block.body =
      parts.flatten.flatMap Coded.body := List.flatMap_map ..
  have hstart : startBlocks entry true = [Bootstrap.block entry] := rfl
  rw [hstart, List.singleton_append, readAssembly_text comments (List.cons_ne_nil _ _),
    List.flatMap_cons, hbodies]
  · rfl
  intro b hb
  rcases List.mem_cons.mp hb with rfl | hb
  · exact Bootstrap.readable_block hentry
  · obtain ⟨c, hc, rfl⟩ := List.mem_map.mp hb
    exact (h.readable hunits c hc).2

end HackVm
