import HackVm.Proofs.Lowering.Effects
import HackVm.Proofs.Program.Output
import HackVm.Proofs.StackMachine.Machine

set_option autoImplicit false

/-! # The processor runs what the stack machine runs

A translated program does on the processor what its commands do on the stack machine. The state of
the processor corresponds to that of the stack machine if it is where the code of the next command
begins and the memories agree.

`Stands` collects what is needed of the program memory: the code of each command stands at its
address. From it a step of the stack machine is followed by the processor, one case for each
command (`Stands.simulates_step`), and by induction so are runs of any length
(`Stands.simulates_run`). -/

namespace HackVm

open StackMachine

variable {σ : Symbols} {rom : Rom} {i : Nat} {m cm : Ram}

/-! ## Cells -/

theorem Memory.exists_of_pointerCell {n : Int} {symbol : String}
    (h : Memory.pointerCell n = .ok symbol) :
    n = 0 ∧ symbol = Base.this.symbol ∨ n = 1 ∧ symbol = Base.that.symbol := by
  have hsmall : ¬ (n < 0 ∨ 2 ≤ n) := by
    intro hn
    rw [Memory.pointerCell_eq_error_iff n |>.mpr hn] at h
    cases h
  have hn : n = 0 ∨ n = 1 := by omega
  rcases hn with rfl | rfl
  · cases h
    exact .inl ⟨rfl, rfl⟩
  · cases h
    exact .inr ⟨rfl, rfl⟩

/-- Symbols of the temp segment name its cells. -/
theorem Symbols.Standard.temp (hσ : σ.Standard) {n : Int} {symbol : String}
    (h : Memory.tempCell n = .ok symbol) :
    (0 ≤ n ∧ n < Memory.tempSize) ∧ σ symbol = BitVec.ofNat 16 (Memory.tempBase + n.toNat) := by
  unfold Memory.tempCell at h
  split at h
  · rename_i hn
    cases h
    refine ⟨hn, ?_⟩
    obtain ⟨k, rfl⟩ := Int.eq_ofNat_of_zero_le hn.1
    have hk : k < 8 := Int.ofNat_lt.mp hn.2
    have hall : ∀ k < 8, ("R" ++ toString (Memory.tempBase + k),
        BitVec.ofNat 16 (Memory.tempBase + k)) ∈ predefinedSymbols := by decide
    exact hσ _ (hall k hk)
  · cases h

/-- The static variable that a command uses. -/
def Command.static? : Command → Option Int
  | .push .static n | .pop .static n => some n
  | _ => none

/-- The cell of an index is that of a symbol, whatever the memory is. -/
def NamesCell (σ : Symbols) (p : Program) (unit : String) (segment : Segment) (n : Int)
    (symbol : String) : Prop :=
  (∀ m, p.cell? unit m segment n = some (σ symbol)) ∧ ¬ Cell.IsScratch (σ symbol)

theorem namesCell_pointer (hσ : σ.Standard) (p : Program) (unit : String) {n : Int}
    {symbol : String} (h : Memory.pointerCell n = .ok symbol) :
    NamesCell σ p unit .pointer n symbol := by
  rcases Memory.exists_of_pointerCell h with ⟨rfl, rfl⟩ | ⟨rfl, rfl⟩
  · rw [NamesCell, hσ.base]
    exact ⟨fun m => rfl, Base.not_isScratch _⟩
  · rw [NamesCell, hσ.base]
    exact ⟨fun m => rfl, Base.not_isScratch _⟩

theorem namesCell_temp (hσ : σ.Standard) (p : Program) (unit : String) {n : Int}
    {symbol : String} (h : Memory.tempCell n = .ok symbol) :
    NamesCell σ p unit .temp n symbol := by
  obtain ⟨hn, hcell⟩ := hσ.temp h
  rw [NamesCell, hcell]
  refine ⟨fun m => if_pos hn, ?_⟩
  obtain ⟨k, rfl⟩ := Int.eq_ofNat_of_zero_le hn.1
  have hk : k < 8 := Int.ofNat_lt.mp hn.2
  have hall : ∀ k < 8, ¬ Cell.IsScratch (BitVec.ofNat 16 (Memory.tempBase + k)) := by decide
  exact hall k hk

theorem word?_of_cell? {p : Program} {unit : String} {segment : Segment} {n : Int} {x : Word16}
    (h : p.cell? unit m segment n = some x) : p.word? unit m segment n = some (m x) := by
  have hword : segment ≠ .constant →
      p.word? unit m segment n = (p.cell? unit m segment n).map m := by
    intro hne
    cases segment with
    | constant => exact absurd rfl hne
    | based base | static | pointer | temp => rfl
  rw [hword ?_, h, Option.map_some]
  rintro rfl
  cases h

/-! ## Commands that go on to the next one -/

namespace Generator

variable {g : Generator} {segment : Segment} {n : Int} {body : List Line}

theorem leads_arithmetic (hσ : σ.Standard) {op : Operation}
    (h : Placed σ rom i (g.arithmetic op).1) (hm : m.HasWords op.arity) :
    Leads rom i m (i + codeSize (g.arithmetic op).1) (m.compute op) := by
  cases op with
  | add | sub | and | or => exact Sequence.leads_binary hσ h hm
  | neg | not => exact Sequence.leads_unary hσ h _ (fun s => rfl) hm
  | eq | gt | lt => exact Sequence.leads_comparison hσ h hm

variable {p : Program}

/-- A push is of a cell that is found through a base, of a constant, or of a cell with a symbol of
its own. -/
theorem push_cases (hσ : σ.Standard)
    (hstatic : ∀ k, (Command.push segment n).static? = some k →
      NamesCell σ p g.unit .static k (g.staticSymbol k))
    (h : g.push segment n = .ok body) :
    (∃ base, segment = .based base ∧ body = Sequence.pushBased base n) ∨
      (segment = .constant ∧ body = Sequence.pushConstant n) ∨
      ∃ symbol, body = Sequence.pushCell symbol ∧ NamesCell σ p g.unit segment n symbol := by
  cases segment with
  | based base =>
    cases h
    exact .inl ⟨base, rfl, rfl⟩
  | constant =>
    cases h
    exact .inr (.inl ⟨rfl, rfl⟩)
  | static =>
    cases h
    exact .inr (.inr ⟨_, rfl, hstatic n rfl⟩)
  | pointer =>
    obtain ⟨symbol, hsymbol, rfl⟩ := exists_of_map_mapError h
    exact .inr (.inr ⟨symbol, rfl, namesCell_pointer hσ p g.unit hsymbol⟩)
  | temp =>
    obtain ⟨symbol, hsymbol, rfl⟩ := exists_of_map_mapError h
    exact .inr (.inr ⟨symbol, rfl, namesCell_temp hσ p g.unit hsymbol⟩)

theorem pop_cases (hσ : σ.Standard)
    (hstatic : ∀ k, (Command.pop segment n).static? = some k →
      NamesCell σ p g.unit .static k (g.staticSymbol k))
    (h : g.pop segment n = .ok body) :
    (∃ base, segment = .based base ∧ body = Sequence.popBased base n) ∨
      ∃ symbol, body = Sequence.popCell symbol ∧ NamesCell σ p g.unit segment n symbol := by
  cases segment with
  | based base =>
    cases h
    exact .inl ⟨base, rfl, rfl⟩
  | constant => cases h
  | static =>
    cases h
    exact .inr ⟨_, rfl, hstatic n rfl⟩
  | pointer =>
    obtain ⟨symbol, hsymbol, rfl⟩ := exists_of_map_mapError h
    exact .inr ⟨symbol, rfl, namesCell_pointer hσ p g.unit hsymbol⟩
  | temp =>
    obtain ⟨symbol, hsymbol, rfl⟩ := exists_of_map_mapError h
    exact .inr ⟨symbol, rfl, namesCell_temp hσ p g.unit hsymbol⟩

/-- The code of a push pushes the word that the stack machine pushes. -/
theorem leads_push (hσ : σ.Standard)
    (hstatic : ∀ k, (Command.push segment n).static? = some k →
      NamesCell σ p g.unit .static k (g.staticSymbol k))
    (hbody : g.push segment n = .ok body) (h : Placed σ rom i body) (agree : cm.Agree m)
    (fits : (Command.push segment n).Fits m) :
    ∃ w, p.word? g.unit m segment n = some w ∧
      Leads rom i cm (i + codeSize body) (cm.push w) := by
  rcases push_cases hσ hstatic hbody with
    ⟨base, rfl, rfl⟩ | ⟨rfl, rfl⟩ | ⟨symbol, rfl, hcell, hscratch⟩
  · obtain ⟨words, hscratch⟩ := fits
    have hpush := Sequence.leads_pushBased hσ h (agree.hasWords words)
    rw [agree.base, agree _ hscratch] at hpush
    exact ⟨_, rfl, hpush⟩
  · exact ⟨_, rfl, Sequence.leads_pushConstant hσ h (agree.hasWords fits)⟩
  · have words : m.HasWords 0 := fits.hasWords_of_push
    have hpush := Sequence.leads_pushCell hσ h (agree.hasWords words)
    rw [agree _ hscratch] at hpush
    exact ⟨_, word?_of_cell? (hcell m), hpush⟩

/-- The code of a pop writes into the cell that the stack machine writes into. -/
theorem leads_pop (hσ : σ.Standard)
    (hstatic : ∀ k, (Command.pop segment n).static? = some k →
      NamesCell σ p g.unit .static k (g.staticSymbol k))
    (hbody : g.pop segment n = .ok body) (h : Placed σ rom i body) (agree : cm.Agree m)
    (fits : m.HasWords 1) :
    ∃ x, p.cell? g.unit m segment n = some x ∧
      ∃ cm', Leads rom i cm (i + codeSize body) cm' ∧ cm'.Agree (m.popTo x) := by
  rcases pop_cases hσ hstatic hbody with ⟨base, rfl, rfl⟩ | ⟨symbol, rfl, hcell, hscratch⟩
  · exact ⟨_, rfl, _, Sequence.leads_popBased hσ h (agree.hasWords fits),
      agree.popBased fits base _⟩
  · exact ⟨_, hcell m, _, Sequence.leads_popCell hσ h (agree.hasWords fits), agree.popTo fits _⟩

end Generator

/-! ## Programs in the program memory -/

/-- A command with the code that a generator of its unit gives it. -/
structure Coded.IsLowered (scope : StaticScope) (c : Coded) : Prop where
  readable : c.command.Readable
  lowered : ∃ g g' : Generator, g.unit = c.unit ∧ g.statics = scope ∧
    g.lower c.command = .ok (c.body, g')

/-- The commands of a program stand one behind the other in the program memory, and the stack
machine knows their addresses and the cells of their static variables. -/
structure Stands (σ : Symbols) (rom : Rom) (scope : StaticScope) (p : Program)
    (codes : List Coded) : Prop where
  standard : σ.Standard
  commands : p.commands = codes.map fun c => (c.unit, c.command)
  lowered : ∀ c ∈ codes, c.IsLowered scope
  placed : ∀ k c, codes[k]? = some c → Placed σ rom (p.address k) c.body
  next : ∀ k c, codes[k]? = some c → p.address (k + 1) = p.address k + codeSize c.body
  statics : ∀ c ∈ codes, ∀ n, c.command.static? = some n →
    p.statics c.unit n = σ (scope.symbol c.unit n) ∧ Cell.IsFree (p.statics c.unit n)

/-- From address `i` and memory `cm` the processor comes to where the stack machine is, with a
memory that agrees with that of the stack machine. -/
def Follows (rom : Rom) (p : Program) (i : Nat) (cm : Ram) (s : State) : Prop :=
  ∃ cm', Leads rom i cm (p.addressOf s.control) cm' ∧ cm'.Agree s.ram

theorem Follows.next {p : Program} {k size : Nat} {cm' m' : Ram}
    (hnext : p.address (k + 1) = i + size) (hleads : Leads rom i cm (i + size) cm')
    (agree : cm'.Agree m') : Follows rom p i cm ⟨.command (k + 1), m'⟩ := by
  rw [← hnext] at hleads
  exact ⟨cm', hleads, agree⟩

namespace Stands

variable {scope : StaticScope} {p : Program} {codes : List Coded}

theorem exists_coded (h : Stands σ rom scope p codes) {k : Nat} {unit : String} {c : Command}
    (hc : p.commands[k]? = some (unit, c)) : ∃ body, codes[k]? = some ⟨unit, c, body⟩ := by
  rw [h.commands, List.getElem?_map] at hc
  obtain ⟨⟨unit', c', body⟩, hcoded, heq⟩ := Option.map_eq_some_iff.mp hc
  cases heq
  exact ⟨body, hcoded⟩

/-- A command that is searched for stands at the index that is found. -/
theorem exists_of_findIdx? (h : Stands σ rom scope p codes) {f : String × Command → Bool}
    {j : Nat} (hj : p.commands.findIdx? f = some j) :
    ∃ c, codes[j]? = some c ∧ f (c.unit, c.command) = true ∧ c.IsLowered scope := by
  obtain ⟨hlt, hf, -⟩ := List.findIdx?_eq_some_iff_getElem.mp hj
  obtain ⟨body, hcoded⟩ := h.exists_coded (List.getElem?_eq_getElem hlt)
  exact ⟨_, hcoded, hf, h.lowered _ (List.mem_of_getElem? hcoded)⟩

/-- A label stands for the address of the command behind it. -/
theorem label (h : Stands σ rom scope p codes) {name : String} {j : Nat}
    (hj : p.label? name = some j) : (σ name).toNat = p.address (j + 1) := by
  obtain ⟨⟨unit, c, body⟩, hcoded, hc, ⟨-, g, g', -, -, hlower⟩⟩ := h.exists_of_findIdx? hj
  obtain rfl : c = .label name := beq_iff_eq.mp hc
  -- the code of the command is the label alone, which has no size
  cases hlower
  have haddress := h.placed j _ hcoded
  rw [h.next j _ hcoded, haddress.label]
  rfl

/-- A function stands for the address of the command that begins it. -/
theorem function (h : Stands σ rom scope p codes) {name : String} {j : Nat}
    (hj : p.function? name = some j) : (σ name).toNat = p.address j := by
  obtain ⟨⟨unit, c, body⟩, hcoded, hc, ⟨-, g, g', -, -, hlower⟩⟩ := h.exists_of_findIdx? hj
  have hdeclares : c.declares? = some name := beq_iff_eq.mp hc
  cases c with
  | function f n =>
    obtain rfl : f = name := Option.some.inj hdeclares
    have hbody : Sequence.function f n = body := (Prod.mk.inj (Except.ok.inj hlower)).1
    have hplaced : Placed σ rom (p.address j) body := h.placed j _ hcoded
    rw [← hbody] at hplaced
    exact hplaced.label
  | _ => cases hdeclares

/-- The symbol of a static variable that a command uses names its cell. -/
theorem namesCell (h : Stands σ rom scope p codes) {c : Coded} (hc : c ∈ codes) (n : Int)
    (hn : c.command.static? = some n) :
    NamesCell σ p c.unit .static n (scope.symbol c.unit n) := by
  obtain ⟨hcell, hfree⟩ := h.statics c hc n hn
  rw [NamesCell, ← hcell]
  exact ⟨fun m => rfl, hfree.not_isScratch⟩

/-- The processor follows a command of the stack machine. -/
theorem simulates_next (h : Stands σ rom scope p codes) {k : Nat} {c : Coded} {s : State}
    (hk : codes[k]? = some c) (fits : c.command.Fits m)
    (hs : p.next? k c.unit m c.command = some s) (agree : cm.Agree m) :
    Follows rom p (p.address k) cm s := by
  have hmem : c ∈ codes := List.mem_of_getElem? hk
  have hplaced := h.placed k c hk
  have hnext := h.next k c hk
  have hnames := h.namesCell hmem
  obtain ⟨readable, g, g', hunit, rfl, hlower⟩ := h.lowered c hmem
  obtain ⟨unit, c, body⟩ := c
  dsimp only at *
  subst hunit
  cases c with
  | arithmetic op =>
    obtain rfl := Option.some.inj hs
    obtain ⟨rfl, -⟩ := Prod.mk.inj (Except.ok.inj hlower)
    have hleads := Generator.leads_arithmetic h.standard hplaced (agree.hasWords fits)
    exact .next hnext hleads (agree.compute fits)
  | push segment n =>
    obtain ⟨hbody, -⟩ := Generator.eq_of_map_eq_ok hlower
    obtain ⟨w, hw, hleads⟩ := Generator.leads_push h.standard hnames hbody hplaced agree fits
    rw [Program.next?, hw] at hs
    obtain rfl := Option.some.inj hs
    exact .next hnext hleads (agree.push w)
  | pop segment n =>
    obtain ⟨hbody, -⟩ := Generator.eq_of_map_eq_ok hlower
    obtain ⟨x, hx, cm', hleads, hcm'⟩ :=
      Generator.leads_pop h.standard hnames hbody hplaced agree fits
    rw [Program.next?, hx] at hs
    obtain rfl := Option.some.inj hs
    exact .next hnext hleads hcm'
  | label name =>
    obtain rfl := Option.some.inj hs
    cases hlower
    exact .next hnext (.refl _ _) agree
  | goto name =>
    obtain ⟨j, hj, rfl⟩ := Option.map_eq_some_iff.mp hs
    cases hlower
    have hleads := Sequence.leads_goto (m := cm) hplaced
    rw [h.label hj] at hleads
    exact ⟨cm, hleads, agree⟩
  | ifGoto name =>
    cases hlower
    have hleads := Sequence.leads_ifGoto h.standard hplaced (agree.hasWords fits)
    -- both sides find the same word on the stack
    rw [agree.top fits] at hleads
    rw [Program.next?] at hs
    by_cases hw : m.pop.1 = 0
    · rw [if_pos hw] at hs hleads
      obtain rfl := Option.some.inj hs
      exact .next hnext hleads agree.pop
    · rw [if_neg hw] at hs hleads
      obtain ⟨j, hj, rfl⟩ := Option.map_eq_some_iff.mp hs
      rw [h.label hj] at hleads
      exact ⟨cm.pop.2, hleads, agree.pop⟩
  | function name n =>
    obtain ⟨words, room⟩ := fits
    obtain rfl := Option.some.inj hs
    obtain ⟨rfl, -⟩ := Prod.mk.inj (Except.ok.inj hlower)
    obtain ⟨l, rfl⟩ := Int.eq_ofNat_of_zero_le readable.2
    have hleads :=
      Sequence.leads_function h.standard hplaced (agree.hasWords words) (agree.hasRoom room)
    exact .next hnext hleads (agree.pushZeros l)
  | call callee n back =>
    obtain ⟨words, room⟩ := fits
    obtain ⟨j, hj, rfl⟩ := Option.map_eq_some_iff.mp hs
    obtain ⟨rfl, -⟩ := Prod.mk.inj (Except.ok.inj hlower)
    obtain ⟨hback, hleads⟩ :=
      Sequence.leads_call h.standard hplaced (agree.hasWords words) (agree.hasRoom room)
    rw [h.function hj] at hleads
    -- the address that is pushed is the one of the next command
    have haddress : BitVec.ofNat 16 (p.address (k + 1)) = σ back := by
      rw [hnext, ← hback, BitVec.ofNat_toNat, BitVec.setWidth_eq]
    rw [haddress]
    exact ⟨_, hleads, agree.enter _ _⟩
  | ret =>
    obtain ⟨control, hcontrol, rfl⟩ := Option.map_eq_some_iff.mp hs
    cases hlower
    have hleads := Sequence.leads_ret h.standard hplaced (agree.hasFrame fits)
    rw [agree.returnAddress fits, ← Program.addressOf_of_control? hcontrol] at hleads
    exact ⟨_, hleads, agree.leave fits⟩

/-- The processor follows a step of the stack machine. -/
theorem simulates_step (h : Stands σ rom scope p codes) {s s' : State}
    (hs : p.step s = some s') (agree : cm.Agree s.ram) :
    Follows rom p (p.addressOf s.control) cm s' := by
  obtain ⟨control, m⟩ := s
  cases control with
  | halted =>
    obtain rfl := Option.some.inj hs
    exact ⟨cm, .refl _ _, agree⟩
  | command k =>
    obtain ⟨unit, c, hc, fits, hnext⟩ := Program.exists_of_step hs
    obtain ⟨body, hcoded⟩ := h.exists_coded hc
    exact h.simulates_next hcoded fits hnext agree

/-- The processor follows a run of the stack machine. -/
theorem simulates_run (h : Stands σ rom scope p codes) {n : Nat} {s s' : State}
    (hs : p.run n s = some s') (agree : cm.Agree s.ram) :
    Follows rom p (p.addressOf s.control) cm s' := by
  -- the induction is on the number of steps, and the agreement of the memories carries it
  induction n generalizing s cm with
  | zero =>
    obtain rfl := Option.some.inj hs
    exact ⟨cm, .refl _ _, agree⟩
  | succ n ih =>
    obtain ⟨t, hstep, hrun⟩ := Option.bind_eq_some_iff.mp hs
    obtain ⟨cm₁, hfirst, agree₁⟩ := h.simulates_step hstep agree
    obtain ⟨cm₂, hrest, agree₂⟩ := ih hrun agree₁
    exact ⟨cm₂, hfirst.trans hrest, agree₂⟩

/-- A program whose labels and functions are all there only stops where the memory does not fit or
a return leads nowhere. -/
theorem isStuck_of_step_eq_none (h : Stands σ rom scope p codes) (linked : p.Linked) {s : State}
    (hs : p.step s = none) : p.IsStuck s := by
  obtain ⟨control, m⟩ := s
  cases control with
  | halted => cases hs
  | command k =>
    refine ⟨k, rfl, fun unit c hc fits => ?_⟩
    have hmem : (unit, c) ∈ p.commands := List.mem_of_getElem? hc
    have hnone : p.next? k unit m c = none := (Program.step_of_fits hc fits).symm.trans hs
    obtain ⟨body, hk⟩ := h.exists_coded hc
    have hplaced := h.placed k _ hk
    have hnames := h.namesCell (List.mem_of_getElem? hk)
    obtain ⟨-, g, g', rfl, rfl, hlower⟩ := h.lowered _ (List.mem_of_getElem? hk)
    -- every command but a return has a next state
    cases c with
    | push segment n =>
      obtain ⟨hbody, -⟩ := Generator.eq_of_map_eq_ok hlower
      obtain ⟨w, hw, -⟩ := Generator.leads_push h.standard hnames hbody hplaced (.refl m) fits
      rw [Program.next?, hw] at hnone
      cases hnone
    | pop segment n =>
      obtain ⟨hbody, -⟩ := Generator.eq_of_map_eq_ok hlower
      obtain ⟨x, hx, -⟩ := Generator.leads_pop h.standard hnames hbody hplaced (.refl m) fits
      rw [Program.next?, hx] at hnone
      cases hnone
    | goto name =>
      obtain ⟨j, hj⟩ := linked.label _ name (.inl hmem)
      rw [Program.next?, hj] at hnone
      cases hnone
    | ifGoto name =>
      obtain ⟨j, hj⟩ := linked.label _ name (.inr hmem)
      rw [Program.next?, hj] at hnone
      split at hnone <;> cases hnone
    | call callee n back =>
      obtain ⟨j, hj⟩ := linked.function _ callee n back hmem
      rw [Program.next?, hj] at hnone
      cases hnone
    | ret => exact ⟨rfl, Option.map_eq_none_iff.mp hnone⟩
    | arithmetic op | label name | function name n => cases hnone

end Stands

end HackVm
