import HackVm.Proofs.Program.AssemblyLines
import HackVm.Proofs.Program.DataSymbols

set_option autoImplicit false

/-! # Straight-line code

Commands that compute, push and pop are followed by the next command, so a row of them does to the
memory what its commands do one after the other. `Ram.perform` says what one does, down to the
scratch cell that a pop through a base keeps its target in: the target is found before the word is
taken, and the word is stored last, so it may go into the stack pointer, into a base, or into the
scratch cell itself.

The code of a row of such commands leads to its end from every memory that has the words they take
(`Lowered.leads_straight`). It defines only labels of comparisons, so an assembler accepts it if it
fits, with a cell for each static variable (`leads_straight_code`). -/

namespace HackVm

/-! ## What a command does to the memory -/

namespace Command

/-- Commands that compute, push or pop; behind them the next command is run. -/
def isStraight : Command → Bool
  | .arithmetic _ | .push _ _ | .pop _ _ => true
  | _ => false

/-- The number of words that a command takes from the stack to compute or to pop. -/
def taken : Command → Nat
  | .arithmetic op => op.arity
  | .pop _ _ => 1
  | _ => 0

/-- The index that a command names in a segment. -/
def index? : Command → Option Int
  | .push _ n | .pop _ n => some n
  | _ => none

variable {c : Command}

theorem declares?_of_isStraight (h : c.isStraight = true) : c.declares? = none := by
  cases c with
  | arithmetic op | push segment n | pop segment n => rfl
  | _ => cases h

theorem writtenLabel?_of_isStraight (h : c.isStraight = true) : c.writtenLabel? = none := by
  cases c with
  | arithmetic op | push segment n | pop segment n => rfl
  | _ => cases h

/-- The number that such a command makes its code load is its index. -/
theorem index?_of_loaded? (h : c.isStraight = true) {n : Int} (hn : c.loaded? = some n) :
    c.index? = some n := by
  cases c with
  | arithmetic op => cases hn
  | push segment k | pop segment k => cases segment <;> cases hn <;> rfl
  | _ => cases h

theorem readable_of_isStraight (h : c.isStraight = true)
    (nonneg : ∀ n, c.index? = some n → 0 ≤ n) : c.Readable := by
  cases c with
  | arithmetic op => trivial
  | push segment n | pop segment n => exact nonneg n rfl
  | _ => cases h

/-- Such a command stands in any scope. -/
theorem exists_resolve (h : c.isStraight = true) (nonneg : ∀ n, c.index? = some n → 0 ≤ n)
    (scope : Option Scope) : ∃ i : Instruction, i.Named ∧ i.resolve scope = .ok (c, scope) := by
  cases c with
  | arithmetic op => exact ⟨.arithmetic op, trivial, rfl⟩
  | push segment n =>
    obtain ⟨k, rfl⟩ := Int.eq_ofNat_of_zero_le (nonneg n rfl)
    exact ⟨.push segment k, trivial, rfl⟩
  | pop segment n =>
    obtain ⟨k, rfl⟩ := Int.eq_ofNat_of_zero_le (nonneg n rfl)
    exact ⟨.pop segment k, trivial, rfl⟩
  | _ => cases h

end Command

namespace Ram

variable (statics : Int → Word16)

/-- The word at an index of a segment. -/
def word (m : Ram) : Segment → Int → Word16
  | .based base, n => m (m base.cell + BitVec.ofInt 16 n)
  | .constant, n => BitVec.ofInt 16 n
  | .static, n => m (statics n)
  | .pointer, n => m (Base.this.cell + BitVec.ofInt 16 n)
  | .temp, n => m (BitVec.ofNat 16 Memory.tempBase + BitVec.ofInt 16 n)

/-- Pops into an index of a segment; constants are not popped into. -/
def popInto (m : Ram) : Segment → Int → Ram
  | .based base, n => m.popBased base (BitVec.ofInt 16 n)
  | .constant, _ => m
  | .static, n => m.popTo (statics n)
  | .pointer, n => m.popTo (Base.this.cell + BitVec.ofInt 16 n)
  | .temp, n => m.popTo (BitVec.ofNat 16 Memory.tempBase + BitVec.ofInt 16 n)

/-- Computes, pushes or pops; other commands are not performed. -/
def perform (m : Ram) : Command → Ram
  | .arithmetic op => m.compute op
  | .push segment n => m.push (m.word statics segment n)
  | .pop segment n => m.popInto statics segment n
  | _ => m

/-- Performs commands one after the other. -/
def performAll (m : Ram) (cs : List Command) : Ram := cs.foldl (perform statics) m

/-- Before each command the words that it takes lie above the reserved cells. -/
def Supplies : Ram → List Command → Prop
  | _, [] => True
  | m, c :: cs => m.HasWords c.taken ∧ Supplies (m.perform statics c) cs

theorem performAll_cons (m : Ram) (c : Command) (cs : List Command) :
    m.performAll statics (c :: cs) = (m.perform statics c).performAll statics cs := rfl

instance decidableSupplies (m : Ram) (cs : List Command) : Decidable (m.Supplies statics cs) :=
  match cs with
  | [] => isTrue trivial
  | c :: cs =>
    have := decidableSupplies (m.perform statics c) cs
    inferInstanceAs (Decidable (_ ∧ _))

end Ram

/-! ## The code of one command -/

variable {σ : Symbols} {rom : Rom} {i : Nat} {m : Ram}

theorem Symbols.Standard.pointer_eq (hσ : σ.Standard) {n : Int} {symbol : String}
    (h : Memory.pointerCell n = .ok symbol) :
    σ symbol = Base.this.cell + BitVec.ofInt 16 n := by
  rcases Memory.exists_of_pointerCell h with ⟨rfl, rfl⟩ | ⟨rfl, rfl⟩ <;> rw [hσ.base] <;> rfl

theorem Symbols.Standard.temp_eq (hσ : σ.Standard) {n : Int} {symbol : String}
    (h : Memory.tempCell n = .ok symbol) :
    σ symbol = BitVec.ofNat 16 Memory.tempBase + BitVec.ofInt 16 n := by
  obtain ⟨⟨hn, -⟩, hcell⟩ := hσ.temp h
  obtain ⟨k, rfl⟩ := Int.eq_ofNat_of_zero_le hn
  rw [hcell, BitVec.ofNat_add, BitVec.ofInt_natCast, Int.toNat_natCast]

namespace Generator

variable {g g' : Generator} {segment : Segment} {n : Int} {body : List Line}

/-- The code of a push pushes the word that it names. -/
theorem leads_push_word (hσ : σ.Standard) (h : g.push segment n = .ok body)
    (hplaced : Placed σ rom i body) (hm : m.HasWords 0) :
    Leads rom i m (i + codeSize body) (m.push (m.word (σ ∘ g.staticSymbol) segment n)) := by
  cases segment with
  | based base =>
    cases h
    exact Sequence.leads_pushBased hσ hplaced hm
  | constant =>
    cases h
    exact Sequence.leads_pushConstant hσ hplaced hm
  | static =>
    cases h
    exact Sequence.leads_pushCell hσ hplaced hm
  | pointer =>
    obtain ⟨symbol, hsymbol, rfl⟩ := exists_of_map_mapError h
    rw [Ram.word, ← hσ.pointer_eq hsymbol]
    exact Sequence.leads_pushCell hσ hplaced hm
  | temp =>
    obtain ⟨symbol, hsymbol, rfl⟩ := exists_of_map_mapError h
    rw [Ram.word, ← hσ.temp_eq hsymbol]
    exact Sequence.leads_pushCell hσ hplaced hm

/-- The code of a pop pops into the index that it names. -/
theorem leads_popInto (hσ : σ.Standard) (h : g.pop segment n = .ok body)
    (hplaced : Placed σ rom i body) (hm : m.HasWords 1) :
    Leads rom i m (i + codeSize body) (m.popInto (σ ∘ g.staticSymbol) segment n) := by
  cases segment with
  | based base =>
    cases h
    exact Sequence.leads_popBased hσ hplaced hm
  | constant => cases h
  | static =>
    cases h
    exact Sequence.leads_popCell hσ hplaced hm
  | pointer =>
    obtain ⟨symbol, hsymbol, rfl⟩ := exists_of_map_mapError h
    rw [Ram.popInto, ← hσ.pointer_eq hsymbol]
    exact Sequence.leads_popCell hσ hplaced hm
  | temp =>
    obtain ⟨symbol, hsymbol, rfl⟩ := exists_of_map_mapError h
    rw [Ram.popInto, ← hσ.temp_eq hsymbol]
    exact Sequence.leads_popCell hσ hplaced hm

/-- The code of a command performs the command. -/
theorem leads_perform (hσ : σ.Standard) {c : Command} (straight : c.isStraight = true)
    (h : g.lower c = .ok (body, g')) (hplaced : Placed σ rom i body) (hm : m.HasWords c.taken) :
    Leads rom i m (i + codeSize body) (m.perform (σ ∘ g.staticSymbol) c) := by
  cases c with
  | arithmetic op =>
    obtain ⟨rfl, -⟩ := Prod.mk.inj (Except.ok.inj h)
    exact leads_arithmetic hσ hplaced hm
  | push segment n => exact leads_push_word hσ (Generator.eq_of_map_eq_ok h).1 hplaced hm
  | pop segment n => exact leads_popInto hσ (Generator.eq_of_map_eq_ok h).1 hplaced hm
  | _ => cases straight

end Generator

/-! ## Rows of commands -/

namespace Lowered

variable {g : Generator} {codes : List Coded}

/-- The code of a row of commands performs them one after the other. The induction is on the row,
for every address and memory; the generator changes on the way, but its static variables do not. -/
theorem leads_straight (h : Lowered g codes) (hσ : σ.Standard)
    (straight : ∀ c ∈ codes, c.command.isStraight = true)
    (hplaced : Placed σ rom i (codes.flatMap Coded.body))
    (hm : m.Supplies (σ ∘ g.staticSymbol) (codes.map Coded.command)) :
    Leads rom i m (i + codeSize (codes.flatMap Coded.body))
      (m.performAll (σ ∘ g.staticSymbol) (codes.map Coded.command)) := by
  induction h generalizing i m with
  | nil g => exact .refl i m
  | @cons g g' c cs lowered unit others ih =>
    obtain ⟨hunit, hstatics⟩ := Generator.of_lower lowered
    have hsymbol : g'.staticSymbol = g.staticSymbol := by
      funext n
      rw [Generator.staticSymbol, Generator.staticSymbol, hunit, hstatics]
    obtain ⟨hwords, hrest⟩ := hm
    rw [List.flatMap_cons] at hplaced ⊢
    obtain ⟨hfirst, hlater⟩ := placed_append.mp hplaced
    rw [hsymbol] at ih
    have hstep := Generator.leads_perform hσ (straight c List.mem_cons_self) lowered hfirst hwords
    have hrun := ih (fun d hd => straight d (List.mem_cons_of_mem c hd)) hlater hrest
    rw [codeSize_append, ← Nat.add_assoc, List.map_cons, Ram.performAll_cons]
    exact hstep.trans hrun

end Lowered

theorem scoped_of_straight {cs : List Command} (straight : ∀ c ∈ cs, c.isStraight = true)
    (nonneg : ∀ c ∈ cs, ∀ n, c.index? = some n → 0 ≤ n) (scope : Option Scope) :
    Scoped scope cs := by
  induction cs with
  | nil => exact .nil scope
  | cons c cs ih =>
    rw [List.forall_mem_cons] at straight nonneg
    obtain ⟨i, named, resolved⟩ := Command.exists_resolve straight.1 nonneg.1 scope
    exact .cons named resolved (ih straight.2 nonneg.2)

/-- Straight-line commands with indices that an instruction can load. -/
structure StraightLine (codes : List Coded) : Prop where
  straight : ∀ c ∈ codes, c.command.isStraight = true
  index : ∀ c ∈ codes, ∀ n, c.command.index? = some n → 0 ≤ n ∧ n < 2 ^ 15

namespace StraightLine

variable {g : Generator} {codes : List Coded}

theorem scoped_commands (h : StraightLine codes) : Scoped none (codes.map Coded.command) := by
  refine scoped_of_straight (List.forall_mem_map.mpr h.straight) ?_ none
  exact List.forall_mem_map.mpr fun c hc n hn => (h.index c hc n hn).1

theorem declarationsOf_eq_nil (h : StraightLine codes) :
    declarationsOf (codes.map Coded.command) = [] := by
  refine List.filterMap_eq_nil_iff.mpr (List.forall_mem_map.mpr fun c hc => ?_)
  exact Command.declares?_of_isStraight (h.straight c hc)

/-- No label is written in straight-line code; all are invented. -/
theorem labelsOf_eq (h : StraightLine codes) (hlowered : Lowered g codes) :
    labelsOf (codes.flatMap Coded.body) =
      (inventions g.unit none g.comparisons (codes.map Coded.command)).map InventedLabel.text := by
  rw [← flatMap_invented hlowered h.scoped_commands, labelsOf, List.filterMap_flatMap]
  refine List.flatMap_congr fun c hc => ?_
  rw [Coded.invented, Command.writtenLabel?_of_isStraight (h.straight c hc)]
  exact (List.filter_eq_self.mpr fun _ _ => rfl).symm

/-- The labels of straight-line code are those of comparisons of its unit. -/
theorem exists_of_mem_labelsOf (h : StraightLine codes) (hlowered : Lowered g codes) {s : String}
    (hs : s ∈ labelsOf (codes.flatMap Coded.body)) :
    ∃ k, s = Generator.comparisonLabel g.unit k := by
  rw [h.labelsOf_eq hlowered] at hs
  obtain ⟨⟨owner, kind⟩, hl, rfl⟩ := List.mem_map.mp hs
  have hbelongs := belongs_of_mem_inventions hl
  cases kind with
  | comparison k =>
    obtain ⟨rfl, -⟩ := hbelongs
    exact ⟨k, text_comparison _ k⟩
  | localsLoop | localsEnd =>
    have hdeclared : owner ∈ declarationsOf (codes.map Coded.command) := hbelongs
    rw [h.declarationsOf_eq_nil] at hdeclared
    cases hdeclared
  | returnAddress k =>
    rcases hbelongs with hdeclared | ⟨s, hs, -⟩
    · rw [h.declarationsOf_eq_nil] at hdeclared
      cases hdeclared
    · cases hs

end StraightLine

theorem mark_mem_comparisonLabel (unit : String) (k : Nat) :
    '$' ∈ (Generator.comparisonLabel unit k).toList := by
  simp [Generator.comparisonLabel]

/-- No static variable has the name of a comparison of its unit. -/
theorem StaticScope.symbol_ne_comparisonLabel (scope : StaticScope) (unit : String) (n : Int)
    (k : Nat) : scope.symbol unit n ≠ Generator.comparisonLabel unit k := by
  intro heq
  cases scope with
  | unit =>
    have hlist := congrArg String.toList heq
    simp only [StaticScope.symbol, Generator.comparisonLabel, String.toList_append,
      List.append_assoc] at hlist
    have hhead := congrArg List.head? (List.append_cancel_left hlist)
    simp at hhead
  | global =>
    have hmark := mark_mem_comparisonLabel unit k
    rw [← heq, StaticScope.mark_mem_symbol_iff] at hmark
    cases hmark.1

namespace StraightLine

variable {g : Generator} {codes : List Coded}

theorem exists_lower (h : StraightLine codes) (hlowered : Lowered g codes) {c : Coded}
    (hc : c ∈ codes) : ∃ g₁ g₂ : Generator, g₁.lower c.command = .ok (c.body, g₂) ∧
      c.unit = g.unit ∧ g₁.unit = g.unit ∧ g₁.statics = g.statics := by
  obtain ⟨g₁, g₂, -, -, -, hlower, hunit, hstatics, hc, -⟩ :=
    hlowered.exists_of_mem h.scoped_commands c hc
  exact ⟨g₁, g₂, hlower, hc, hunit, hstatics⟩

/-- An assembler accepts straight-line code that fits the program memory. -/
theorem assemblable (h : StraightLine codes) (hlowered : Lowered g codes)
    (size : codeSize (codes.flatMap Coded.body) < 2 ^ 15) :
    Assemblable (codes.flatMap Coded.body) where
  nodup := by
    have hnone : (declarationsOf (codes.map Coded.command)).Nodup := by
      rw [h.declarationsOf_eq_nil]
      exact List.nodup_nil
    rw [h.labelsOf_eq hlowered]
    exact (nodup_inventions hnone fun s hs => (by cases hs)).map InventedLabel.text_injective
  fresh := by
    intro name hname
    obtain ⟨k, rfl⟩ := h.exists_of_mem_labelsOf hlowered hname
    exact not_predefined_of_mark (mark_mem_comparisonLabel _ k)
  numbers := by
    intro n hn
    obtain ⟨c, hc, hline⟩ := List.mem_flatMap.mp hn
    obtain ⟨g₁, g₂, hlower, -⟩ := h.exists_lower hlowered hc
    have hnumber : n ∈ numbersOf c.body := List.mem_filterMap.mpr ⟨_, hline, rfl⟩
    rcases (numbersOf_of_lower hlower).2 n hnumber with hloaded | rfl
    · exact h.index c hc n (Command.index?_of_loaded? (h.straight c hc) hloaded)
    · decide
  size := size

/-- The static variables of straight-line code are variables to an assembler. -/
theorem mem_variablesOf (h : StraightLine codes) (hlowered : Lowered g codes) {s : String}
    (hs : s ∈ staticSymbols g.statics codes) : s ∈ variablesOf (codes.flatMap Coded.body) := by
  obtain ⟨c, hc, n, hn, rfl⟩ := mem_staticSymbols_iff.mp hs
  obtain ⟨g₁, g₂, hlower, hunit, hunit₁, hstatics⟩ := h.exists_lower hlowered hc
  have hreference := Generator.staticSymbol_mem_referencesOf hlower hn
  rw [Generator.staticSymbol, hunit₁, hstatics] at hreference
  rw [hunit]
  refine mem_variablesOf_iff.mpr ⟨?_, g.statics.symbol_not_mem_predefined g.unit n, fun hl => ?_⟩
  · rw [referencesOf, List.filterMap_flatMap]
    exact List.mem_flatMap.mpr ⟨c, hc, hreference⟩
  · obtain ⟨k, hk⟩ := h.exists_of_mem_labelsOf hlowered hl
    exact g.statics.symbol_ne_comparisonLabel g.unit n k hk

/-- The lines of straight-line code of a unit that is named by a symbol can be read. -/
theorem readable (h : StraightLine codes) (hlowered : Lowered g codes) (hunit : IsSymbol g.unit) :
    ∀ line ∈ codes.flatMap Coded.body, line.Readable := by
  intro line hline
  obtain ⟨c, hc, hline⟩ := List.mem_flatMap.mp hline
  obtain ⟨g₁, g₂, hlower, -, hunit₁, -⟩ := h.exists_lower hlowered hc
  have hcommand : c.command.Readable :=
    Command.readable_of_isStraight (h.straight c hc) fun n hn => (h.index c hc n hn).1
  exact Generator.readable_lower (hunit₁ ▸ hunit) hcommand hlower line hline

end StraightLine

/-! ## Assembled code -/

/-- Straight-line code that stands in the program memory, wherever that is, performs its commands:
from any memory that has the words they take the processor comes to its end with just the memory
that the commands make. If all indices can be loaded, the text of the code reads back, and if the
code fits the program memory, an assembler accepts it, gives each static variable a cell of its
own, and the assembled code performs the commands. -/
theorem leads_straight_code {g : Generator} {codes : List Coded} (hlowered : Lowered g codes)
    (straight : ∀ c ∈ codes, c.command.isStraight = true) :
    let code := codes.flatMap Coded.body
    let commands := codes.map Coded.command
    (∀ (σ : Symbols) (rom : Rom) (i : Nat) (m : Ram), σ.Standard → Placed σ rom i code →
      m.Supplies (σ ∘ g.staticSymbol) commands →
      Leads rom i m (i + codeSize code) (m.performAll (σ ∘ g.staticSymbol) commands)) ∧
    ((∀ c ∈ commands, ∀ n, c.index? = some n → 0 ≤ n ∧ n < 2 ^ 15) →
      (IsSymbol g.unit → readLines (code.map fun line => line.text.toList) = some code) ∧
      (codeSize code < 2 ^ 15 →
        let σ := symbolsOf code
        Assemblable code ∧ (∀ s ∈ staticSymbols g.statics codes, Cell.IsFree (σ s)) ∧
        Set.InjOn σ { s | s ∈ staticSymbols g.statics codes } ∧
        ∀ m : Ram, m.Supplies (σ ∘ g.staticSymbol) commands →
          Leads (assemble code) 0 m (codeSize code)
            (m.performAll (σ ∘ g.staticSymbol) commands))) := by
  intro code commands
  refine ⟨fun σ rom i m hσ hplaced hm => hlowered.leads_straight hσ straight hplaced hm,
    fun hindex => ?_⟩
  have hline : StraightLine codes := ⟨straight, List.forall_mem_map.mp hindex⟩
  refine ⟨fun hunit => ?_, fun size => ?_⟩
  · have hread := readLines_body (hline.readable hlowered hunit) []
    rw [List.append_nil] at hread
    rw [hread]
    exact congrArg some (List.append_nil code)
  · intro σ
    have hassemblable := hline.assemblable hlowered size
    have hvariables : ∀ s ∈ staticSymbols g.statics codes, s ∈ variablesOf code :=
      fun s => hline.mem_variablesOf hlowered
    refine ⟨hassemblable, fun s hs => isFree_of_mem_variablesOf size (hvariables s hs),
      (injOn_symbolsOf_variables size).mono hvariables, fun m hm => ?_⟩
    have hleads := hlowered.leads_straight (standard_symbolsOf code) straight
      (placed_assemble hassemblable) hm
    rwa [Nat.zero_add] at hleads

/-- Code that pops into the stack pointer, and compares a static variable with a number there. -/
def moveStack : List Coded := [
  ⟨"Main", .push .constant 300, Sequence.pushConstant 300⟩,
  ⟨"Main", .pop (.based .that) 1, Sequence.popBased .that 1⟩,
  ⟨"Main", .push .constant 5, Sequence.pushConstant 5⟩,
  ⟨"Main", .push .static 2, Sequence.pushCell "Main.2"⟩,
  ⟨"Main", .arithmetic .gt, Sequence.comparison .gt "Main$cmp.8"⟩]

/-- The base at the last address and the index wrap around to the stack pointer. -/
theorem leads_straight_code_moveStack :
    let m : Ram := fun x => if x = Cell.stackPointer then 256 else if x = 4 then -1 else 3
    ∃ t, Cpu.Reaches (assemble (moveStack.flatMap Coded.body)) ⟨9, 9, 0, m⟩ t ∧
      t.pc = codeSize (moveStack.flatMap Coded.body) ∧ t.ram.sp = 301 ∧ t.ram 300 = -1 ∧
      t.ram Cell.scratchAddress = 0 ∧ t.ram 16 = 3 := by
  intro m
  have hlowered : Lowered ⟨"Main", .unit, 7⟩ moveStack :=
    .cons rfl rfl (.cons rfl rfl (.cons rfl rfl (.cons rfl rfl (.cons rfl rfl (.nil _)))))
  obtain ⟨-, hcode⟩ := leads_straight_code hlowered (by decide)
  obtain ⟨-, hassembled⟩ := hcode (by decide)
  obtain ⟨-, -, -, hleads⟩ := hassembled (by decide)
  obtain ⟨t, hreaches, hpc, hram⟩ := hleads m (by decide +kernel) ⟨9, 9, 0, m⟩ rfl rfl
  refine ⟨t, hreaches, hpc, ?_, ?_, ?_, ?_⟩
  all_goals rw [hram]; decide +kernel

end HackVm
