import HackVm.Program.Translate
import HackVm.Proofs.Command.Recognition
import Mathlib.Data.List.Forall2

set_option autoImplicit false

/-! # The code of a program

A program that can be translated is a row of commands with their code, unit after unit. `IsUnitCode`
says it of one unit and `IsProgramCode` of all of them; `translateUnits_eq_ok_iff` says
that the texts of programs are just the texts of such code. What holds of a program is then shown
by induction on its units and, within a unit, on its commands. -/

namespace HackVm

/-- A command with the unit it stands in and the code it is given. -/
structure Coded where
  unit : String
  command : Command
  body : List Line

def Coded.block (c : Coded) : Block := ⟨c.command.text, c.body⟩

/-- Commands with the code that a generator gives them, one behind the other. -/
inductive Lowered : Generator → List Coded → Prop
  | nil (g : Generator) : Lowered g []
  | cons {g g' : Generator} {c : Coded} {cs : List Coded}
      (lowered : g.lower c.command = .ok (c.body, g')) (unit : c.unit = g.unit)
      (others : Lowered g' cs) : Lowered g (c :: cs)

/-- The commands of a unit with their code. -/
def IsUnitCode (scope : StaticScope) (unit source : String) (codes : List Coded) : Prop :=
  ∃ statements, readUnit source unit = .ok statements ∧
    codes.map Coded.command = statements.map Statement.command ∧
    Lowered (.enter scope unit) codes

/-- The commands of a program with their code, unit by unit. -/
def IsProgramCode (scope : StaticScope) (units : List (String × String))
    (parts : List (List Coded)) : Prop :=
  List.Forall₂ (fun u codes => IsUnitCode scope u.1 u.2 codes) units parts

/-- The functions that a text declares. -/
def declaredIn (unit source : String) : List String :=
  declarationsOf ((Reader.ofString source unit).readAll.statements.map Statement.command)

/-- The block that a program begins with, if it has one. -/
def startBlocks (entry : String) (bootstrap : Bool) : List Block :=
  if bootstrap then [Bootstrap.block entry] else []

/-! ## Generators -/

theorem Generator.eq_of_map_eq_ok {g g' : Generator} {r : Except LoweringError (List Line)}
    {body : List Line} (h : (·, g) <$> r = .ok (body, g')) : r = .ok body ∧ g' = g := by
  cases r with
  | error e => cases h
  | ok lines =>
    cases h
    exact ⟨rfl, rfl⟩

/-- Code for a cell of a fixed segment is made from the symbol of the cell. -/
theorem exists_of_map_mapError {ε ε' : Type} {f : String → List Line} {e : ε → ε'}
    {r : Except ε String} {body : List Line} (h : f <$> r.mapError e = .ok body) :
    ∃ symbol, r = .ok symbol ∧ body = f symbol := by
  cases r with
  | error _ => cases h
  | ok symbol =>
    cases h
    exact ⟨symbol, rfl, rfl⟩

/-- A generator stays in its unit and its static scope. -/
theorem Generator.of_lower {g g' : Generator} {c : Command} {body : List Line}
    (h : g.lower c = .ok (body, g')) : g'.unit = g.unit ∧ g'.statics = g.statics := by
  cases c with
  | arithmetic op => cases op <;> cases h <;> exact ⟨rfl, rfl⟩
  | push segment index | pop segment index =>
    obtain ⟨-, rfl⟩ := Generator.eq_of_map_eq_ok h
    exact ⟨rfl, rfl⟩
  | _ => cases h; exact ⟨rfl, rfl⟩

theorem exists_lowered {unit : String} {g : Generator} {statements : List Statement}
    {blocks : List Block} (h : lowerStatements unit g statements = .ok blocks) :
    ∃ codes, Lowered g codes ∧
      codes.map Coded.command = statements.map Statement.command ∧
      blocks = codes.map Coded.block := by
  induction statements generalizing g blocks with
  | nil =>
    cases h
    exact ⟨[], .nil g, rfl, rfl⟩
  | cons s rest ih =>
    rw [lowerStatements] at h
    split at h
    · cases h
    · rename_i body g' hlower
      cases hrest : lowerStatements unit g' rest with
      | error e =>
        rw [hrest] at h
        cases h
      | ok others =>
        rw [hrest] at h
        cases h
        obtain ⟨codes, hlowered, hcommands, rfl⟩ := ih hrest
        refine ⟨⟨g.unit, s.command, body⟩ :: codes, .cons hlower rfl hlowered, ?_, rfl⟩
        rw [List.map_cons, List.map_cons, hcommands]

theorem lowerStatements_of_lowered (unit : String) {g : Generator} {codes : List Coded}
    {statements : List Statement} (h : Lowered g codes)
    (hcommands : codes.map Coded.command = statements.map Statement.command) :
    lowerStatements unit g statements = .ok (codes.map Coded.block) := by
  induction h generalizing statements with
  | nil g =>
    obtain rfl := List.map_eq_nil_iff.mp hcommands.symm
    rfl
  | @cons g g' c cs lowered _ others ih =>
    obtain ⟨s, rest, rfl, hs, hrest⟩ := List.map_eq_cons_iff.mp hcommands.symm
    rw [lowerStatements, hs, lowered]
    dsimp only
    rw [ih hrest.symm]
    rfl

/-- Where the code of one command comes from: a generator of the unit lowered it, and it was
resolved from an instruction. -/
theorem Lowered.exists_of_mem {g : Generator} {scope : Option Scope} {codes : List Coded}
    (h : Lowered g codes) (hscoped : Scoped scope (codes.map Coded.command)) :
    ∀ c ∈ codes, ∃ g₁ g₂ : Generator, ∃ i : Instruction, ∃ scope₁ scope₂,
      g₁.lower c.command = .ok (c.body, g₂) ∧ g₁.unit = g.unit ∧ g₁.statics = g.statics ∧
        c.unit = g.unit ∧ i.Named ∧ i.resolve scope₁ = .ok (c.command, scope₂) := by
  induction h generalizing scope with
  | nil g =>
    intro c hc
    cases hc
  | @cons g g' c cs lowered unit others ih =>
    obtain _ | ⟨named, resolved, later⟩ := hscoped
    intro d hd
    rcases List.mem_cons.mp hd with rfl | hd
    · exact ⟨g, g', _, _, _, lowered, rfl, rfl, unit, named, resolved⟩
    · obtain ⟨hunit, hstatics⟩ := Generator.of_lower lowered
      rw [← hunit, ← hstatics]
      exact ih later d hd

/-! ## Units -/

namespace Report

variable {ε α β : Type}

theorem result_bind_eq_ok_iff {r : Report ε α} {f : α → Report ε β} {b : β} :
    (r >>= f).result = .ok b ↔ ∃ a, r.result = .ok a ∧ (f a).result = .ok b := by
  cases hr : r.result with
  | ok a =>
    rw [bind_of_ok hr]
    refine ⟨fun h => ⟨a, rfl, h⟩, ?_⟩
    rintro ⟨a', ha, h⟩
    rwa [Except.ok.inj ha]
  | error e =>
    rw [bind_of_error hr]
    refine ⟨fun h => (by cases h), ?_⟩
    rintro ⟨a, ha, -⟩
    cases ha

end Report

theorem IsUnitCode.scoped {scope : StaticScope} {unit source : String} {codes : List Coded}
    (h : IsUnitCode scope unit source codes) : Scoped none (codes.map Coded.command) := by
  obtain ⟨statements, hread, hcommands, -⟩ := h
  exact hcommands ▸ scoped_of_readUnit hread

theorem IsUnitCode.exists_of_mem {scope : StaticScope} {unit source : String}
    {codes : List Coded} (h : IsUnitCode scope unit source codes) :
    ∀ c ∈ codes, ∃ g₁ g₂ : Generator, ∃ i : Instruction, ∃ scope₁ scope₂,
      g₁.lower c.command = .ok (c.body, g₂) ∧ g₁.unit = unit ∧ g₁.statics = scope ∧
        c.unit = unit ∧ i.Named ∧ i.resolve scope₁ = .ok (c.command, scope₂) := by
  have hscoped := h.scoped
  obtain ⟨-, -, -, hlowered⟩ := h
  exact hlowered.exists_of_mem hscoped

theorem IsUnitCode.declarations {scope : StaticScope} {unit source : String}
    {codes : List Coded} (h : IsUnitCode scope unit source codes) :
    declarationsOf (codes.map Coded.command) = declaredIn unit source := by
  obtain ⟨statements, hread, hcommands, -⟩ := h
  rw [declaredIn, hcommands, (readUnit_eq_ok_iff.mp hread).2]

theorem unitBlocks_eq_ok_iff {scope : StaticScope} {unit source : String}
    {blocks : List Block} :
    unitBlocks scope unit (Reader.ofString source unit).readAll = .ok blocks ↔
      ∃ codes, IsUnitCode scope unit source codes ∧ blocks = codes.map Coded.block := by
  constructor
  · intro h
    unfold unitBlocks at h
    split at h
    · cases h
    · cases h
    · rename_i blocks' hlower hfailure
      cases h
      obtain ⟨codes, hlowered, hcommands, rfl⟩ := exists_lowered hlower
      exact ⟨codes, ⟨_, readUnit_eq_ok_iff.mpr ⟨hfailure, rfl⟩, hcommands, hlowered⟩, rfl⟩
  · rintro ⟨codes, ⟨statements, hread, hcommands, hlowered⟩, rfl⟩
    obtain ⟨hfailure, hstatements⟩ := readUnit_eq_ok_iff.mp hread
    rw [unitBlocks, hstatements, hfailure, lowerStatements_of_lowered unit hlowered hcommands]

theorem Lowered.unique {g : Generator} {cs ds : List Coded} (hcs : Lowered g cs)
    (hds : Lowered g ds) (h : cs.map Coded.command = ds.map Coded.command) : cs = ds := by
  induction hcs generalizing ds with
  | nil g => exact (List.map_eq_nil_iff.mp h.symm).symm
  | @cons g g' c cs lowered unit others ih =>
    obtain _ | ⟨lowered', unit', others'⟩ := hds
    · cases h
    · obtain ⟨hcommand, hrest⟩ := List.cons.inj h
      rw [← hcommand, lowered] at lowered'
      obtain ⟨hbody, rfl⟩ := Prod.mk.inj (Except.ok.inj lowered')
      rw [ih others' hrest]
      congr 1
      exact congr (congr (congrArg Coded.mk (unit.trans unit'.symm)) hcommand) hbody

/-- A program has one code only. -/
theorem IsProgramCode.unique {scope : StaticScope} {units : List (String × String)}
    {parts parts' : List (List Coded)} (h : IsProgramCode scope units parts)
    (h' : IsProgramCode scope units parts') : parts = parts' := by
  induction h generalizing parts' with
  | nil =>
    cases h'
    rfl
  | cons hunit hothers ih =>
    obtain _ | ⟨hunit', hothers'⟩ := h'
    obtain ⟨statements, hread, hcommands, hlowered⟩ := hunit
    obtain ⟨statements', hread', hcommands', hlowered'⟩ := hunit'
    obtain rfl := Except.ok.inj (hread.symm.trans hread')
    rw [ih hothers', hlowered.unique hlowered' (hcommands.trans hcommands'.symm)]

/-- A unit that can be read and lowered has code. -/
theorem exists_isUnitCode {scope : StaticScope} {unit source : String}
    {statements : List Statement} {blocks : List Block}
    (hread : readUnit source unit = .ok statements)
    (hlower : lowerStatements unit (.enter scope unit) statements = .ok blocks) :
    (∃ codes, IsUnitCode scope unit source codes) ∧
      declaredIn unit source = declarationsOf (statements.map Statement.command) := by
  obtain ⟨codes, hlowered, hcommands, -⟩ := exists_lowered hlower
  have hcodes : IsUnitCode scope unit source codes := ⟨statements, hread, hcommands, hlowered⟩
  refine ⟨⟨codes, hcodes⟩, ?_⟩
  rw [← hcodes.declarations, hcommands]

/-- The notices on the way say nothing about the result. -/
theorem result_translateUnit (scope : StaticScope) (unit source : String) :
    (translateUnit scope unit source).result =
      (unitBlocks scope unit (Reader.ofString source unit).readAll).map fun blocks =>
        ⟨blocks, (Reader.ofString source unit).readAll.reader.declaredByName⟩ := by
  unfold translateUnit
  dsimp only
  generalize unitBlocks scope unit (Reader.ofString source unit).readAll = r
  cases r with
  | error e => rfl
  | ok blocks => cases blocks <;> rfl

theorem translateUnit_eq_ok_iff {scope : StaticScope} {unit source : String}
    {t : TranslatedUnit} :
    (translateUnit scope unit source).result = .ok t ↔
      ∃ codes, IsUnitCode scope unit source codes ∧ t.blocks = codes.map Coded.block ∧
        t.declared = (Reader.ofString source unit).readAll.reader.declaredByName := by
  rw [result_translateUnit]
  cases hblocks : unitBlocks scope unit (Reader.ofString source unit).readAll with
  | error e =>
    refine ⟨fun h => (by cases h), ?_⟩
    rintro ⟨codes, hcodes, -⟩
    rw [unitBlocks_eq_ok_iff.mpr ⟨codes, hcodes, rfl⟩] at hblocks
    cases hblocks
  | ok blocks =>
    constructor
    · intro h
      cases h
      obtain ⟨codes, hcodes, rfl⟩ := unitBlocks_eq_ok_iff.mp hblocks
      exact ⟨codes, hcodes, rfl, rfl⟩
    · rintro ⟨codes, hcodes, ht, hdeclared⟩
      rw [unitBlocks_eq_ok_iff.mpr ⟨codes, hcodes, rfl⟩] at hblocks
      cases hblocks
      rw [← ht, ← hdeclared]
      rfl

/-! ## Owners of functions -/

theorem lookup_append_singleton (owners : Owners) (name other unit : String) :
    List.lookup other (owners ++ [(name, unit)]) =
      (owners.lookup other).or (if other = name then some unit else none) := by
  rw [List.lookup_append, List.lookup_cons]
  by_cases hother : other = name
  · simp [hother]
  · simp [beq_eq_false_iff_ne.mpr hother, hother]

/-- The functions of a unit get owners, unless they have one. -/
theorem Owners.exists_enter (unit : String) (owners : Owners) (names : List String) :
    ∃ owners', (owners.enter unit names).result = .ok owners' ∧
      ∀ name, owners'.lookup name =
        (owners.lookup name).or (if name ∈ names then some unit else none) := by
  induction names generalizing owners with
  | nil => exact ⟨owners, rfl, fun name => by simp⟩
  | cons f names ih =>
    rw [Owners.enter]
    cases hfirst : owners.lookup f with
    | some first =>
      obtain ⟨owners', hresult, hlookup⟩ := ih owners
      refine ⟨owners', Report.result_bind_eq_ok_iff.mpr ⟨(), rfl, hresult⟩, fun name => ?_⟩
      rw [hlookup]
      by_cases hname : name = f
      · rw [hname, hfirst, Option.some_or, Option.some_or]
      · simp only [List.mem_cons, hname, false_or]
    | none =>
      obtain ⟨owners', hresult, hlookup⟩ := ih (owners ++ [(f, unit)])
      refine ⟨owners', hresult, fun name => ?_⟩
      rw [hlookup, lookup_append_singleton, Option.or_assoc]
      by_cases hname : name = f <;> simp [hname]

theorem isSome_or_ite {α : Type} {p : Prop} [Decidable p] {first : Option α} {a : α} :
    (first.or (if p then some a else none)).isSome = true ↔ first.isSome = true ∨ p := by
  by_cases hp : p <;> simp [hp]

/-! ## Programs -/

/-- The functions of a program are those that its units declare. -/
theorem IsProgramCode.declarations {scope : StaticScope} {units : List (String × String)}
    {parts : List (List Coded)} (h : IsProgramCode scope units parts) :
    declarationsOf (parts.flatten.map Coded.command) =
      units.flatMap fun u => declaredIn u.1 u.2 := by
  induction h with
  | nil => rfl
  | cons hunit hothers ih =>
    rw [List.flatten_cons, List.map_append, declarationsOf_append, hunit.declarations, ih,
      List.flatMap_cons]

/-- Functions are declared under names. -/
theorem Scoped.isName_of_mem {scope : Option Scope} {cs : List Command} (h : Scoped scope cs)
    {name : String} (hname : name ∈ declarationsOf cs) : IsName name := by
  induction h with
  | nil scope => cases hname
  | @cons scope scope' i c cs named resolved others ih =>
    rw [declarationsOf_cons] at hname
    rcases List.mem_append.mp hname with hfirst | hrest
    · cases i with
      | function f n =>
        cases resolved
        obtain rfl := List.mem_singleton.mp hfirst
        exact named
      | arithmetic op | push segment n | pop segment n =>
        cases resolved
        cases hfirst
      | label f | goto f | ifGoto f | call f n | ret =>
        cases scope <;> cases resolved
        cases hfirst
    · exact ih hrest

theorem IsProgramCode.isName_of_mem {scope : StaticScope} {units : List (String × String)}
    {parts : List (List Coded)} (h : IsProgramCode scope units parts) {name : String}
    (hname : name ∈ units.flatMap fun u => declaredIn u.1 u.2) : IsName name := by
  induction h with
  | nil => cases hname
  | @cons u codes units parts hunit hothers ih =>
    rw [List.flatMap_cons] at hname
    rcases List.mem_append.mp hname with hfirst | hrest
    · rw [← hunit.declarations] at hfirst
      exact hunit.scoped.isName_of_mem hfirst
    · exact ih hrest

/-- Each command of a program has its code from a generator of its unit. -/
theorem IsProgramCode.exists_of_mem {scope : StaticScope} {units : List (String × String)}
    {parts : List (List Coded)} (h : IsProgramCode scope units parts) :
    ∀ c ∈ parts.flatten, ∃ g₁ g₂ : Generator, ∃ i : Instruction, ∃ scope₁ scope₂,
      g₁.lower c.command = .ok (c.body, g₂) ∧ c.unit = g₁.unit ∧ g₁.statics = scope ∧
        c.unit ∈ units.map Prod.fst ∧ i.Named ∧
          i.resolve scope₁ = .ok (c.command, scope₂) := by
  induction h with
  | nil =>
    intro c hc
    cases hc
  | @cons u codes units parts hunit hothers ih =>
    intro c hc
    rw [List.flatten_cons] at hc
    rcases List.mem_append.mp hc with hfirst | hrest
    · obtain ⟨g₁, g₂, i, scope₁, scope₂, hlower, hg, hstatics, hc, hnamed, hresolve⟩ :=
        hunit.exists_of_mem c hfirst
      refine ⟨g₁, g₂, i, scope₁, scope₂, hlower, hc.trans hg.symm, hstatics, ?_, hnamed, hresolve⟩
      rw [hc]
      exact List.mem_cons_self
    · obtain ⟨g₁, g₂, i, scope₁, scope₂, hlower, hg, hstatics, hc, hnamed, hresolve⟩ :=
        ih c hrest
      exact ⟨g₁, g₂, i, scope₁, scope₂, hlower, hg, hstatics, List.mem_cons_of_mem _ hc, hnamed,
        hresolve⟩

/-- Units that have code are translated to it, and then all functions they declare have owners. -/
theorem IsProgramCode.exists_translateEach {scope : StaticScope}
    {units : List (String × String)} {parts : List (List Coded)}
    (h : IsProgramCode scope units parts) (owners : Owners) :
    ∃ owners', (translateEach scope owners units).result =
        .ok (parts.flatten.map Coded.block, owners') ∧
      ∀ name, (owners'.lookup name).isSome = true ↔ (owners.lookup name).isSome = true ∨
        name ∈ units.flatMap fun u => declaredIn u.1 u.2 := by
  induction h generalizing owners with
  | nil => exact ⟨owners, rfl, fun name => by simp⟩
  | @cons u codes units parts hunit hothers ih =>
    obtain ⟨unit, source⟩ := u
    obtain ⟨owners₁, henter, hlookup₁⟩ := owners.exists_enter unit
      (Reader.ofString source unit).readAll.reader.declaredByName
    obtain ⟨owners₂, heach, hlookup₂⟩ := ih owners₁
    refine ⟨owners₂, ?_, fun name => ?_⟩
    · rw [translateEach]
      refine Report.result_bind_eq_ok_iff.mpr
        ⟨⟨codes.map Coded.block, _⟩, translateUnit_eq_ok_iff.mpr ⟨codes, hunit, rfl, rfl⟩, ?_⟩
      refine Report.result_bind_eq_ok_iff.mpr ⟨owners₁, henter, ?_⟩
      refine Report.result_bind_eq_ok_iff.mpr ⟨_, heach, ?_⟩
      rw [List.flatten_cons, List.map_append]
      rfl
    · obtain ⟨statements, hread, -⟩ := hunit
      rw [hlookup₂, hlookup₁, isSome_or_ite, mem_declaredByName_of_readUnit hread,
        List.flatMap_cons, List.mem_append, or_assoc, declaredIn, (readUnit_eq_ok_iff.mp hread).2]

/-- Units that are translated have code. -/
theorem exists_isProgramCode {scope : StaticScope} {units : List (String × String)}
    {owners owners' : Owners} {blocks : List Block}
    (h : (translateEach scope owners units).result = .ok (blocks, owners')) :
    ∃ parts, IsProgramCode scope units parts := by
  induction units generalizing owners blocks with
  | nil => exact ⟨[], .nil⟩
  | cons u rest ih =>
    obtain ⟨unit, source⟩ := u
    rw [translateEach] at h
    obtain ⟨t, ht, h⟩ := Report.result_bind_eq_ok_iff.mp h
    obtain ⟨owners₁, -, h⟩ := Report.result_bind_eq_ok_iff.mp h
    obtain ⟨⟨blocks₁, owners₂⟩, hrest, h⟩ := Report.result_bind_eq_ok_iff.mp h
    cases h
    obtain ⟨codes, hcodes, -⟩ := translateUnit_eq_ok_iff.mp ht
    obtain ⟨parts, hparts⟩ := ih hrest
    exact ⟨codes :: parts, .cons hcodes hparts⟩

theorem checkEntry_eq_ok_iff {owners : Owners} {entry : Setting} :
    owners.checkEntry entry = .ok () ↔
      ∃ name, entry = .given name ∧ (owners.lookup name).isSome = true := by
  cases entry with
  | blank => simp [Owners.checkEntry]
  | given name => simp [Owners.checkEntry]

/-- A program has a text if and only if all its units have code, and the function it starts with
is declared. The text is then that of the code, behind the start. -/
theorem translateUnits_eq_ok_iff {settings : Settings} {units : List (String × String)}
    {bootstrap : Bool} {text : String} :
    (translateUnits settings units bootstrap).result = .ok text ↔
      ∃ scope parts, StaticScope.ofSetting settings.staticScope = .ok scope ∧
        IsProgramCode scope units parts ∧
        (bootstrap = true → ∃ name, settings.entry = .given name ∧
          name ∈ units.flatMap fun u => declaredIn u.1 u.2) ∧
        text = Block.text settings.comments
          (startBlocks settings.entry.text bootstrap ++ parts.flatten.map Coded.block) := by
  have heach : ∀ {scope parts}, IsProgramCode scope units parts →
      ∃ owners, (translateEach scope [] units).result =
          .ok (parts.flatten.map Coded.block, owners) ∧
        (owners.checkEntry settings.entry = .ok () ↔ ∃ name, settings.entry = .given name ∧
          name ∈ units.flatMap fun u => declaredIn u.1 u.2) := by
    intro scope parts hparts
    obtain ⟨owners, hresult, hlookup⟩ := hparts.exists_translateEach []
    refine ⟨owners, hresult, ?_⟩
    rw [checkEntry_eq_ok_iff]
    simp [hlookup]
  unfold translateUnits
  -- with a bootstrap the entry is checked behind the units, without one it is not
  rw [Report.result_bind_eq_ok_iff]
  refine exists_congr fun scope => ?_
  cases bootstrap with
  | false =>
    simp only [Bool.false_eq_true, if_false]
    constructor
    · rintro ⟨hscope, h⟩
      obtain ⟨⟨blocks, owners⟩, hblocks, h⟩ := Report.result_bind_eq_ok_iff.mp h
      obtain ⟨parts, hparts⟩ := exists_isProgramCode hblocks
      obtain ⟨owners', hresult, -⟩ := heach hparts
      rw [hresult] at hblocks
      cases hblocks
      cases h
      exact ⟨parts, hscope, hparts, False.elim, rfl⟩
    · rintro ⟨parts, hscope, hparts, -, rfl⟩
      obtain ⟨owners, hresult, -⟩ := heach hparts
      exact ⟨hscope, Report.result_bind_eq_ok_iff.mpr ⟨_, hresult, rfl⟩⟩
  | true =>
    simp only [if_true]
    constructor
    · rintro ⟨hscope, h⟩
      obtain ⟨-, -, h⟩ := Report.result_bind_eq_ok_iff.mp h
      obtain ⟨⟨blocks, owners⟩, hblocks, h⟩ := Report.result_bind_eq_ok_iff.mp h
      obtain ⟨⟨⟩, hentry, h⟩ := Report.result_bind_eq_ok_iff.mp h
      obtain ⟨parts, hparts⟩ := exists_isProgramCode hblocks
      obtain ⟨owners', hresult, hcheck⟩ := heach hparts
      rw [hresult] at hblocks
      cases hblocks
      cases h
      exact ⟨parts, hscope, hparts, fun _ => hcheck.mp hentry, rfl⟩
    · rintro ⟨parts, hscope, hparts, hentry, rfl⟩
      obtain ⟨owners, hresult, hcheck⟩ := heach hparts
      refine ⟨hscope, Report.result_bind_eq_ok_iff.mpr ⟨(), rfl, ?_⟩⟩
      refine Report.result_bind_eq_ok_iff.mpr ⟨_, hresult, ?_⟩
      exact Report.result_bind_eq_ok_iff.mpr ⟨(), hcheck.mpr (hentry trivial), rfl⟩

end HackVm
