import HackVm.Proofs.Program.DataSymbols

set_option autoImplicit false

/-! # Who sees a static variable

The symbol of a static variable is put together from the name of a unit and an index, or from the
index alone. An index is written without a dot, so the last dot of a symbol tells the two apart,
whatever dots and digits the name of the unit has: two symbols are the same just if the scope says
that the variables are (`StaticScope.symbol_eq_iff`). What a generator did before does not matter,
since only entering a unit changes the unit, and nothing changes the scope
(`Generator.unit_afterAll`).

With a cell for each symbol a word that is popped into a static variable stays there, for those who
share the variable and for no others, until one of them pops again (`StaticHistory.apply`). -/

namespace HackVm

/-! ## Symbols -/

theorem toString_int_injective {m n : Int} (h : (toString m).toList = (toString n).toList) :
    m = n := by
  have hsign : ∀ j k : Nat, (toString j).toList ≠ '-' :: (toString k).toList := by
    intro j k heq
    have hdigit := Text.isDigit_of_mem_toString (heq ▸ List.mem_cons_self)
    exact absurd hdigit (by decide)
  cases m with
  | ofNat j =>
    cases n with
    | ofNat k => exact congrArg Int.ofNat (toString_injective h)
    | negSucc k => exact absurd (h.trans (Text.toList_toString_negSucc k)) (hsign j (k + 1))
  | negSucc j =>
    cases n with
    | ofNat k =>
      exact absurd (h.symm.trans (Text.toList_toString_negSucc j)) (hsign k (j + 1))
    | negSucc k =>
      rw [Text.toList_toString_negSucc, Text.toList_toString_negSucc] at h
      exact congrArg Int.negSucc (Nat.succ.inj (toString_injective (List.cons.inj h).2))

namespace StaticScope

/-- Index `i` in unit `u` and index `j` in unit `v` are the same static variable. -/
def Shares (scope : StaticScope) (u : String) (i : Int) (v : String) (j : Int) : Prop :=
  match scope with
  | .unit => u = v ∧ i = j
  | .global => i = j

instance (scope : StaticScope) (u : String) (i : Int) (v : String) (j : Int) :
    Decidable (scope.Shares u i v j) :=
  match scope with
  | .unit => inferInstanceAs (Decidable (u = v ∧ i = j))
  | .global => inferInstanceAs (Decidable (i = j))

/-- Symbols are the same just if the variables are. -/
theorem symbol_eq_iff {scope : StaticScope} {u v : String} {i j : Int} :
    scope.symbol u i = scope.symbol v j ↔ scope.Shares u i v j := by
  have hdot : ∀ n : Int, '.' ∉ (toString n).toList := not_mem_toString (by decide) (by decide)
  cases scope with
  | unit =>
    refine ⟨fun h => ?_, fun ⟨hunit, hindex⟩ => hunit ▸ hindex ▸ rfl⟩
    have hlist := congrArg String.toList h
    simp only [symbol, String.toList_append, List.append_assoc] at hlist
    obtain ⟨hunit, hindex⟩ := append_cons_inj_of_not_mem hlist (hdot i) (hdot j)
    exact ⟨String.toList_inj.mp hunit, toString_int_injective hindex⟩
  | global =>
    refine ⟨fun h => ?_, fun hindex => congrArg (symbol .global u) hindex⟩
    have hlist := congrArg String.toList h
    rw [symbol, symbol, String.toList_append, String.toList_append] at hlist
    exact toString_int_injective (List.append_cancel_left hlist)

end StaticScope

/-! ## Generators in use -/

namespace Generator

/-- What a generator is used for. -/
inductive Use
  | setUnit (unit : String)
  | lower (command : Command)

/-- The unit that is entered. -/
def Use.unit? : Use → Option String
  | .setUnit unit => some unit
  | .lower _ => none

/-- The generator behind a use. A command without code leaves it as it is. -/
def after (g : Generator) : Use → Generator
  | .setUnit unit => g.setUnit unit
  | .lower command =>
    match g.lower command with
    | .ok (_, g') => g'
    | .error _ => g

/-- The generator behind a row of uses. -/
def afterAll (g : Generator) (uses : List Use) : Generator := uses.foldl after g

/-- The unit that was entered last in a row of uses, or the one from before. -/
def unitBehind (unit : String) (uses : List Use) : String :=
  (uses.filterMap Use.unit?).getLastD unit

theorem statics_after (g : Generator) (use : Use) : (g.after use).statics = g.statics := by
  cases use with
  | setUnit unit => rfl
  | lower command =>
    rw [after]
    cases h : g.lower command with
    | ok result => exact (of_lower h).2
    | error e => rfl

theorem unit_after (g : Generator) (use : Use) :
    (g.after use).unit = use.unit?.getD g.unit := by
  cases use with
  | setUnit unit => rfl
  | lower command =>
    rw [after]
    cases h : g.lower command with
    | ok result => exact (of_lower h).1
    | error e => rfl

theorem statics_afterAll (g : Generator) (uses : List Use) :
    (g.afterAll uses).statics = g.statics := by
  induction uses generalizing g with
  | nil => rfl
  | cons use uses ih => exact (ih (g.after use)).trans (g.statics_after use)

theorem unit_afterAll (g : Generator) (uses : List Use) :
    (g.afterAll uses).unit = unitBehind g.unit uses := by
  induction uses generalizing g with
  | nil => rfl
  | cons use uses ih =>
    have hrest : (g.afterAll (use :: uses)).unit = unitBehind (g.after use).unit uses :=
      ih (g.after use)
    rw [hrest, unit_after, unitBehind, unitBehind]
    cases use with
    | setUnit unit => exact (List.getLastD_cons ..).symm
    | lower command => rfl

end Generator

/-! ## Words in static variables -/

/-- A word that is popped into a static variable. -/
structure StaticPop where
  unit : String
  index : Int
  word : Word16

/-- The word that was popped last into a static variable; the last pop stands first. -/
def StaticScope.lastWord? (scope : StaticScope) (pops : List StaticPop) (unit : String)
    (index : Int) : Option Word16 :=
  (pops.find? fun p => scope.Shares p.unit p.index unit index).map StaticPop.word

/-- From one memory to another, words are popped into the static variables with the symbols
`names`, and between the pops the cells of these variables stay as they are. The last pop stands
first. -/
inductive StaticHistory (σ : Symbols) (scope : StaticScope) (names : Set String) (m : Ram) :
    List StaticPop → Ram → Prop
  | start : StaticHistory σ scope names m [] m
  | pop {pops : List StaticPop} {m' : Ram} (before : StaticHistory σ scope names m pops m')
      {unit : String} {index : Int} (named : scope.symbol unit index ∈ names) :
      StaticHistory σ scope names m (⟨unit, index, m'.pop.1⟩ :: pops)
        (m'.popTo (σ (scope.symbol unit index)))
  | other {pops : List StaticPop} {m' m'' : Ram} (before : StaticHistory σ scope names m pops m')
      (keeps : ∀ s ∈ names, m'' (σ s) = m' (σ s)) : StaticHistory σ scope names m pops m''

/-- What a static variable holds is the word that was popped last into the same variable, or what
it held at the start. -/
theorem StaticHistory.apply {σ : Symbols} {scope : StaticScope} {names : Set String}
    {m m' : Ram} {pops : List StaticPop} (h : StaticHistory σ scope names m pops m')
    (injective : Set.InjOn σ names) (free : ∀ s ∈ names, Cell.IsFree (σ s)) {unit : String}
    {index : Int} (named : scope.symbol unit index ∈ names) :
    m' (σ (scope.symbol unit index)) =
      (scope.lastWord? pops unit index).getD (m (σ (scope.symbol unit index))) := by
  induction h with
  | start => rfl
  | other _ keeps ih => rw [keeps _ named, ih]
  | @pop pops m' _ u i hu ih =>
    rw [StaticScope.lastWord?, List.find?_cons]
    by_cases hshares : scope.Shares u i unit index
    · rw [StaticScope.symbol_eq_iff.mpr hshares, Ram.popTo, Ram.set_self]
      simp [hshares]
    · have hne : σ (scope.symbol unit index) ≠ σ (scope.symbol u i) := fun heq =>
        hshares (StaticScope.symbol_eq_iff.mp (injective named hu heq).symm)
      have hstack : σ (scope.symbol unit index) ≠ Cell.stackPointer :=
        (free _ named).ne (by decide)
      rw [Ram.popTo, Ram.set_of_ne _ _ hne, Ram.pop_apply hstack, ih]
      simp [hshares, StaticScope.lastWord?]

/-! ## Code for static variables -/

/-- Whatever generators did before, their symbols of static variables are the same just if the
scope says that the variables are. The code of a pop pops into the cell of the symbol, and the code
of a push pushes it: with a cell for each symbol, the word that was popped last into the same
variable, or what the variable held before all pops. -/
theorem statics_shared_by_scope (scope : StaticScope) (start start' : String)
    (uses uses' : List Generator.Use) (i j : Int) :
    let g := (Generator.enter scope start).afterAll uses
    let g' := (Generator.enter scope start').afterAll uses'
    let unit := Generator.unitBehind start uses
    (g.staticSymbol i = g'.staticSymbol j ↔
      scope.Shares unit i (Generator.unitBehind start' uses') j) ∧
    g.lower (.pop .static i) = .ok (Sequence.popCell (g.staticSymbol i), g) ∧
    g.lower (.push .static i) = .ok (Sequence.pushCell (g.staticSymbol i), g) ∧
    ∀ (σ : Symbols) (rom : Rom) (p : Nat), σ.Standard →
      (∀ m : Ram, Placed σ rom p (Sequence.popCell (g.staticSymbol i)) → m.HasWords 1 →
        Leads rom p m (p + codeSize (Sequence.popCell (g.staticSymbol i)))
          (m.popTo (σ (scope.symbol unit i)))) ∧
      ∀ (names : Set String) (pops : List StaticPop) (m m' : Ram), Set.InjOn σ names →
        (∀ s ∈ names, Cell.IsFree (σ s)) → scope.symbol unit i ∈ names →
        StaticHistory σ scope names m pops m' →
        Placed σ rom p (Sequence.pushCell (g.staticSymbol i)) → m'.HasWords 0 →
        Leads rom p m' (p + codeSize (Sequence.pushCell (g.staticSymbol i)))
          (m'.push ((scope.lastWord? pops unit i).getD (m (σ (scope.symbol unit i))))) := by
  intro g g' unit
  have hsymbol : ∀ (start : String) (uses : List Generator.Use) (n : Int),
      ((Generator.enter scope start).afterAll uses).staticSymbol n =
        scope.symbol (Generator.unitBehind start uses) n := by
    intro start uses n
    rw [Generator.staticSymbol, Generator.statics_afterAll, Generator.unit_afterAll]
    rfl
  refine ⟨?_, rfl, rfl, fun σ rom p hσ => ⟨fun m hplaced hm => ?_, ?_⟩⟩
  · rw [hsymbol, hsymbol]
    exact StaticScope.symbol_eq_iff
  · rw [← hsymbol]
    exact Sequence.leads_popCell hσ hplaced hm
  · intro names pops m m' injective free named history hplaced hm
    rw [← history.apply injective free named, ← hsymbol]
    exact Sequence.leads_pushCell hσ hplaced hm

/-- Two units pop into static variables with symbols that differ in a dot, and one of them pushes
its variable again. -/
def dottedStatics : List Line :=
  Sequence.pushConstant 5 ++ (Sequence.popCell "A.12" ++ (Sequence.pushConstant 6 ++
    (Sequence.popCell "A.1.2" ++ Sequence.pushCell "A.12")))

/-- The first unit finds its own word again. -/
theorem statics_shared_by_scope_dottedStatics :
    let m : Ram := fun x => if x = Cell.stackPointer then 256 else 9
    ∃ t, Cpu.Reaches (assemble dottedStatics) ⟨0, 0, 0, m⟩ t ∧ t.pc = codeSize dottedStatics ∧
      t.ram.sp = 257 ∧ t.ram 256 = 5 := by
  intro m
  let σ := symbolsOf dottedStatics
  let names : Set String := { s | s ∈ variablesOf dottedStatics }
  have hσ : σ.Standard := standard_symbolsOf dottedStatics
  obtain ⟨hfirst, hrest⟩ := placed_append.mp
    (placed_assemble (by decide +kernel : Assemblable dottedStatics))
  obtain ⟨hpop, hrest⟩ := placed_append.mp hrest
  obtain ⟨hsecond, hrest⟩ := placed_append.mp hrest
  obtain ⟨hpop', hpush⟩ := placed_append.mp hrest
  -- the memories between the parts
  let m₁ := m.push 5
  let m₂ := m₁.popTo (σ "A.12")
  let m₃ := m₂.push 6
  let m₄ := m₃.popTo (σ "A.1.2")
  have hnames : "A.12" ∈ names ∧ "A.1.2" ∈ names := by
    show "A.12" ∈ variablesOf dottedStatics ∧ "A.1.2" ∈ variablesOf dottedStatics
    decide +kernel
  have hkeeps : ∀ s ∈ variablesOf dottedStatics,
      m₁ (σ s) = m (σ s) ∧ m₃ (σ s) = m₂ (σ s) := by decide +kernel
  have history : StaticHistory σ .unit names m [⟨"A", 12, m₁.pop.1⟩] m₂ :=
    .pop (.other .start fun s hs => (hkeeps s hs).1) hnames.1
  have history' : StaticHistory σ .unit names m
      [⟨"A.1", 2, m₃.pop.1⟩, ⟨"A", 12, m₁.pop.1⟩] m₄ :=
    .pop (.other history fun s hs => (hkeeps s hs).2) hnames.2
  have hwords : m.HasWords 0 ∧ m₁.HasWords 1 ∧ m₂.HasWords 0 ∧ m₃.HasWords 1 ∧
      m₄.HasWords 0 := by
    simp only [Ram.HasWords]
    decide +kernel
  -- the code of the pops and of the push, in the unit that each is from
  obtain ⟨-, -, -, hunit⟩ := statics_shared_by_scope .unit "A.1" "A" [.setUnit "A"] [] 12 2
  obtain ⟨-, -, -, hunit'⟩ := statics_shared_by_scope .unit "A" "A"
    [.lower (.pop .static 12), .setUnit "A.1"] [] 2 12
  have hsize : codeSize dottedStatics < 2 ^ 15 := by decide +kernel
  have hpushes := (hunit σ _ _ hσ).2 names _ m m₄ (injOn_symbolsOf_variables hsize)
    (fun s hs => isFree_of_mem_variablesOf hsize hs) hnames.1 history' hpush hwords.2.2.2.2
  have hleads := (Sequence.leads_pushConstant hσ hfirst hwords.1).trans
    (((hunit σ _ _ hσ).1 m₁ hpop hwords.2.1).trans
      ((Sequence.leads_pushConstant hσ hsecond hwords.2.2.1).trans
        (((hunit' σ _ _ hσ).1 m₃ hpop' hwords.2.2.2.1).trans hpushes)))
  obtain ⟨t, hreaches, hpc, hram⟩ := hleads ⟨0, 0, 0, m⟩ rfl rfl
  refine ⟨t, hreaches, hpc.trans rfl, ?_, ?_⟩
  all_goals rw [hram]; decide +kernel

end HackVm
