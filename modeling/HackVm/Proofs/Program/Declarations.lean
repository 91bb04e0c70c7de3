import HackVm.Proofs.Program.LocalLabels
import Mathlib.Data.List.Dedup

set_option autoImplicit false

/-! # Repeated declarations

A translation warns of units without commands, and of functions that several units declare.
`programWarnings` tells the warnings from the units alone: each unit is compared with the ones
before it, and a function it shares with them is named together with the first unit that declares
it. The owners that are kept on the way know just that (`warnings_translateEach`).

A unit lists each function that it declares once, so a function is reported if and only if two
units declare it, and not if one unit declares it twice (`warnings_translateUnits`). -/

namespace HackVm

/-! ## What is doubtful about a program -/

inductive Warning
  | noCommands (unit : String)
  /-- Two units declare the same function. -/
  | repeated (function first second : String)
  deriving DecidableEq, Repr

def Warning.message : Warning → String
  | .noCommands unit => unit ++ ": no commands"
  | .repeated function first second =>
    "function " ++ function ++ " defined in both " ++ first ++ " and " ++ second

/-- The functions that a text declares, each once, in the order of their names. -/
def namesIn (unit source : String) : List String :=
  (declaredIn unit source).dedup.mergeSort fun a b => decide (a ≤ b)

/-- The first of some units that declares a function. -/
def firstDeclaring? (units : List (String × String)) (f : String) : Option String :=
  (units.find? fun u => decide (f ∈ declaredIn u.1 u.2)).map Prod.fst

/-- What is doubtful about a unit behind other ones. -/
def warningsBehind (before : List (String × String)) (u : String × String) : List Warning :=
  (if (commandsIn u.1 u.2).isEmpty then [.noCommands u.1] else []) ++
    (namesIn u.1 u.2).filterMap fun f =>
      (firstDeclaring? before f).map fun first => .repeated f first u.1

/-- What is doubtful about a row of units behind other ones. -/
def programWarnings (before : List (String × String)) : List (String × String) → List Warning
  | [] => []
  | u :: rest => warningsBehind before u ++ programWarnings (before ++ [u]) rest

/-- Two units of a program declare a function, and the first of them before any other. -/
def RepeatedIn (units : List (String × String)) (f first second : String) : Prop :=
  ∃ before u between v after, units = before ++ u :: (between ++ v :: after) ∧
    (∀ w ∈ before, f ∉ declaredIn w.1 w.2) ∧ f ∈ declaredIn u.1 u.2 ∧ f ∈ declaredIn v.1 v.2 ∧
    first = u.1 ∧ second = v.1

/-! ## The names of a unit -/

theorem mem_namesIn {unit source f : String} :
    f ∈ namesIn unit source ↔ f ∈ declaredIn unit source := by
  rw [namesIn, List.mem_mergeSort, List.mem_dedup]

theorem nodup_namesIn (unit source : String) : (namesIn unit source).Nodup :=
  (List.mergeSort_perm _ _).nodup_iff.mpr (List.nodup_dedup _)

theorem sorted_by_name (names : List String) :
    (names.mergeSort fun a b => decide (a ≤ b)).Pairwise (· ≤ ·) := by
  refine (List.pairwise_mergeSort ?_ ?_ names).imp fun h => of_decide_eq_true h
  · intro a b c hab hbc
    exact decide_eq_true (String.le_trans (of_decide_eq_true hab) (of_decide_eq_true hbc))
  · intro a b
    rw [Bool.or_eq_true, decide_eq_true_eq, decide_eq_true_eq]
    exact String.le_total a b

/-- A reader lists the functions of its text. -/
theorem declaredByName_eq_namesIn {source unit : String} {statements : List Statement}
    (h : readUnit source unit = .ok statements) :
    (Reader.ofString source unit).readAll.reader.declaredByName = namesIn unit source := by
  have hperm : (Reader.ofString source unit).readAll.reader.declaredByName.Perm
      (namesIn unit source) := by
    rw [List.perm_ext_iff_of_nodup (nodup_declaredByName_of_readUnit h) (nodup_namesIn _ _)]
    intro f
    rw [mem_declaredByName_of_readUnit h, mem_namesIn, declaredIn, (readUnit_eq_ok_iff.mp h).2]
  exact hperm.eq_of_pairwise (fun a b _ _ hab hba => String.le_antisymm hab hba)
    (sorted_by_name _) (sorted_by_name _)

/-! ## The warnings on the way -/

theorem Report.warnings_pure {ε α : Type} (a : α) : (pure a : Report ε α).warnings = [] := rfl

theorem Report.warnings_bind_of_ok {ε α β : Type} {r : Report ε α} {a : α} (h : r.result = .ok a)
    (f : α → Report ε β) : (r >>= f).warnings = r.warnings ++ (f a).warnings := by
  rw [bind_of_ok h, warnings, List.filterMap_append]
  rfl

/-- Entering different functions warns of those that have an owner. The induction is on the
functions. -/
theorem Owners.warnings_enter (unit : String) (owners : Owners) {names : List String}
    (hnames : names.Nodup) :
    (owners.enter unit names).warnings = (names.filterMap fun f =>
      (owners.lookup f).map fun first => Warning.repeated f first unit).map Warning.message := by
  induction names generalizing owners with
  | nil => rfl
  | cons f names ih =>
    obtain ⟨hf, hnames⟩ := List.nodup_cons.mp hnames
    rw [Owners.enter, List.filterMap_cons]
    cases hfirst : owners.lookup f with
    | some first =>
      have hwarned : (Report.warn (Warning.repeated f first unit).message :
          Report ProgramError Unit).result = .ok () := rfl
      exact (Report.warnings_bind_of_ok hwarned _).trans (congrArg _ (ih owners hnames))
    | none =>
      refine (ih (owners ++ [(f, unit)]) hnames).trans ?_
      -- the functions behind `f` keep the owners they had
      refine congrArg _ (List.filterMap_congr fun g hg => ?_)
      rw [lookup_append_singleton, if_neg (ne_of_mem_of_not_mem hg hf), Option.or_none]

theorem firstDeclaring?_append (before : List (String × String)) (u : String × String)
    (f : String) :
    firstDeclaring? (before ++ [u]) f =
      (firstDeclaring? before f).or (if f ∈ declaredIn u.1 u.2 then some u.1 else none) := by
  rw [firstDeclaring?, firstDeclaring?, List.find?_append, Option.map_or]
  by_cases hf : f ∈ declaredIn u.1 u.2 <;> simp [hf]

theorem warnings_translateUnit {scope : StaticScope} {unit source : String} {codes : List Coded}
    (h : IsUnitCode scope unit source codes) :
    (translateUnit scope unit source).warnings =
      (if (commandsIn unit source).isEmpty then [Warning.noCommands unit] else []).map
        Warning.message := by
  have hblocks := unitBlocks_eq_ok_iff.mpr ⟨codes, h, rfl⟩
  rw [← h.commands]
  unfold translateUnit
  dsimp only
  rw [hblocks]
  cases codes <;> rfl

/-- The owners on the way are the first units that declare a function, so the warnings are those
of the program. The induction is on the units. -/
theorem warnings_translateEach {scope : StaticScope} {units : List (String × String)}
    {parts : List (List Coded)} (h : IsProgramCode scope units parts)
    {before : List (String × String)} {owners : Owners}
    (howners : ∀ f, owners.lookup f = firstDeclaring? before f) :
    (translateEach scope owners units).warnings =
      (programWarnings before units).map Warning.message := by
  induction h generalizing before owners with
  | nil => rfl
  | @cons u codes units parts hunit hothers ih =>
    obtain ⟨unit, source⟩ := u
    have htranslated : (translateUnit scope unit source).result =
        .ok ⟨codes.map Coded.block, namesIn unit source⟩ := by
      obtain ⟨statements, hread, hcode⟩ := hunit
      exact translateUnit_eq_ok_iff.mpr
        ⟨codes, ⟨statements, hread, hcode⟩, rfl, (declaredByName_eq_namesIn hread).symm⟩
    obtain ⟨owners₁, henter, hlookup⟩ := owners.exists_enter unit (namesIn unit source)
    have howners₁ : ∀ f, owners₁.lookup f = firstDeclaring? (before ++ [(unit, source)]) f := by
      intro f
      rw [hlookup, howners, firstDeclaring?_append]
      simp only [mem_namesIn]
    obtain ⟨owners₂, heach, -⟩ := IsProgramCode.exists_translateEach hothers owners₁
    rw [translateEach, Report.warnings_bind_of_ok htranslated, Report.warnings_bind_of_ok henter,
      Report.warnings_bind_of_ok heach, warnings_translateUnit hunit,
      owners.warnings_enter unit (nodup_namesIn unit source), ih howners₁,
      programWarnings, warningsBehind, List.map_append, List.map_append, List.append_assoc]
    simp only [howners, Report.warnings_pure, List.append_nil]

theorem warnings_translateUnits_of_ok {settings : Settings} {units : List (String × String)}
    {bootstrap : Bool} {text : String}
    (h : (translateUnits settings units bootstrap).result = .ok text) :
    (translateUnits settings units bootstrap).warnings =
      (programWarnings [] units).map Warning.message := by
  obtain ⟨scope, parts, hscope, hparts, hentry, -⟩ := translateUnits_eq_ok_iff.mp h
  obtain ⟨owners, heach, hlookup⟩ := hparts.exists_translateEach []
  have hwarnings := @warnings_translateEach scope units parts hparts [] [] fun _ => rfl
  have hresult : (Report.ofExcept (StaticScope.ofSetting settings.staticScope)).result =
      .ok scope := hscope
  unfold translateUnits
  rw [Report.warnings_bind_of_ok hresult]
  cases bootstrap with
  | false =>
    simp only [Bool.false_eq_true, if_false]
    rw [Report.warnings_bind_of_ok heach, hwarnings]
    exact List.append_nil _
  | true =>
    have hcheck : (Report.ofExcept (owners.checkEntry settings.entry)).result = .ok () := by
      obtain ⟨name, hname, hmem⟩ := hentry rfl
      exact checkEntry_eq_ok_iff.mpr ⟨name, hname, (hlookup name).mpr (.inr hmem)⟩
    have hprogress : ∀ message : String,
        (Report.progress message : Report ProgramError Unit).result = .ok () := fun _ => rfl
    simp only [if_true]
    rw [Report.warnings_bind_of_ok (hprogress _), Report.warnings_bind_of_ok heach, hwarnings]
    dsimp only
    rw [Report.warnings_bind_of_ok hcheck]
    exact List.append_nil _

/-! ## Which functions are reported -/

theorem firstDeclaring?_eq_some_iff {units : List (String × String)} {f first : String} :
    firstDeclaring? units f = some first ↔ ∃ before u after, units = before ++ u :: after ∧
      (∀ w ∈ before, f ∉ declaredIn w.1 w.2) ∧ f ∈ declaredIn u.1 u.2 ∧ first = u.1 := by
  rw [firstDeclaring?, Option.map_eq_some_iff]
  constructor
  · rintro ⟨u, hfind, rfl⟩
    obtain ⟨hu, before, after, hunits, hbefore⟩ := List.find?_eq_some_iff_append.mp hfind
    exact ⟨before, u, after, hunits, fun w hw => by simpa using hbefore w hw, of_decide_eq_true hu,
      rfl⟩
  · rintro ⟨before, u, after, hunits, hbefore, hu, rfl⟩
    refine ⟨u, List.find?_eq_some_iff_append.mpr ⟨decide_eq_true hu, before, after, hunits, ?_⟩,
      rfl⟩
    exact fun w hw => by simpa using hbefore w hw

theorem repeated_mem_warningsBehind {before : List (String × String)} {u : String × String}
    {f first second : String} :
    .repeated f first second ∈ warningsBehind before u ↔
      f ∈ declaredIn u.1 u.2 ∧ firstDeclaring? before f = some first ∧ second = u.1 := by
  have hnone : Warning.repeated f first second ∉
      if (commandsIn u.1 u.2).isEmpty then [Warning.noCommands u.1] else [] := by
    split <;> simp
  rw [warningsBehind, List.mem_append, or_iff_right hnone, List.mem_filterMap]
  constructor
  · rintro ⟨g, hg, hwarning⟩
    obtain ⟨owner, howner, hsame⟩ := Option.map_eq_some_iff.mp hwarning
    cases hsame
    exact ⟨mem_namesIn.mp hg, howner, rfl⟩
  · rintro ⟨hf, hfirst, rfl⟩
    exact ⟨f, mem_namesIn.mpr hf, by rw [hfirst]; rfl⟩

/-- A unit is warned of if it declares a function of a unit before it. The induction is on the
units. -/
theorem repeated_mem_programWarnings {before units : List (String × String)}
    {f first second : String} :
    .repeated f first second ∈ programWarnings before units ↔ ∃ between v after,
      units = between ++ v :: after ∧ f ∈ declaredIn v.1 v.2 ∧
        firstDeclaring? (before ++ between) f = some first ∧ second = v.1 := by
  induction units generalizing before with
  | nil => simp [programWarnings]
  | cons u rest ih =>
    rw [programWarnings, List.mem_append, repeated_mem_warningsBehind, ih]
    constructor
    · rintro (⟨hf, hfirst, hsecond⟩ | ⟨between, v, after, rfl, hf, hfirst, hsecond⟩)
      · exact ⟨[], u, rest, rfl, hf, by rwa [List.append_nil], hsecond⟩
      · exact ⟨u :: between, v, after, rfl, hf, by rwa [List.append_cons], hsecond⟩
    · rintro ⟨between, v, after, hunits, hf, hfirst, hsecond⟩
      cases between with
      | nil =>
        obtain ⟨rfl, -⟩ := List.cons.inj hunits
        exact .inl ⟨hf, by rwa [List.append_nil] at hfirst, hsecond⟩
      | cons w between =>
        obtain ⟨rfl, rfl⟩ := List.cons.inj hunits
        exact .inr ⟨between, v, after, rfl, hf, by rwa [List.append_cons] at hfirst, hsecond⟩

theorem repeated_mem_programWarnings_iff {units : List (String × String)}
    {f first second : String} :
    .repeated f first second ∈ programWarnings [] units ↔ RepeatedIn units f first second := by
  rw [repeated_mem_programWarnings]
  constructor
  · rintro ⟨front, v, after, rfl, hv, hfirst, hsecond⟩
    obtain ⟨before, u, between, hfront, hbefore, hu, hname⟩ := firstDeclaring?_eq_some_iff.mp hfirst
    rw [List.nil_append] at hfront
    refine ⟨before, u, between, v, after, ?_, hbefore, hu, hv, hname, hsecond⟩
    rw [hfront, List.append_assoc, List.cons_append]
  · rintro ⟨before, u, between, v, after, rfl, hbefore, hu, hv, hfirst, hsecond⟩
    refine ⟨before ++ u :: between, v, after, by simp, hv, ?_, hsecond⟩
    exact firstDeclaring?_eq_some_iff.mpr ⟨before, u, between, rfl, hbefore, hu, hfirst⟩

/-- The functions that are reported are those that two units declare. -/
theorem exists_repeatedIn_iff {units : List (String × String)} {f : String} :
    (∃ first second, RepeatedIn units f first second) ↔
      2 ≤ units.countP fun u => decide (f ∈ declaredIn u.1 u.2) := by
  constructor
  · rintro ⟨first, second, before, u, between, v, after, rfl, -, hu, hv, -, -⟩
    simp only [List.countP_append, List.countP_cons, hu, hv, decide_true, if_true]
    omega
  · intro hcount
    have hpos : 0 < units.countP fun u => decide (f ∈ declaredIn u.1 u.2) := by omega
    have hsome : (units.find? fun u => decide (f ∈ declaredIn u.1 u.2)).isSome = true :=
      List.find?_isSome.mpr (List.countP_pos_iff.mp hpos)
    obtain ⟨u, hfind⟩ := Option.isSome_iff_exists.mp hsome
    obtain ⟨hu, before, rest, rfl, hbefore⟩ := List.find?_eq_some_iff_append.mp hfind
    have hnone : before.countP (fun u => decide (f ∈ declaredIn u.1 u.2)) = 0 := by
      rw [List.countP_eq_zero]
      exact fun w hw => by simpa using hbefore w hw
    rw [List.countP_append, hnone, List.countP_cons, if_pos hu] at hcount
    have hrest : 0 < rest.countP fun u => decide (f ∈ declaredIn u.1 u.2) := by omega
    obtain ⟨v, hv, hfv⟩ := List.countP_pos_iff.mp hrest
    obtain ⟨between, after, rfl⟩ := List.append_of_mem hv
    exact ⟨u.1, v.1, before, u, between, v, after, rfl, fun w hw => by simpa using hbefore w hw,
      of_decide_eq_true hu, of_decide_eq_true hfv, rfl, rfl⟩

/-- What two units declare is declared more than once. -/
theorem RepeatedIn.two_le_count {units : List (String × String)} {f first second : String}
    (h : RepeatedIn units f first second) :
    2 ≤ (programFunctions units).count f := by
  obtain ⟨before, u, between, v, after, rfl, -, hu, hv, -, -⟩ := h
  have hcount := List.one_le_count_iff.mpr hu
  have hcount' := List.one_le_count_iff.mpr hv
  simp only [programFunctions, List.flatMap_append, List.flatMap_cons, List.count_append]
  omega

/-- The warnings of a program that has a text. A function is reported if and only if two units of
the program declare it, and each report names the first of all that do and a later one. So what is
reported is declared more than once, while a function that is declared more than once in one unit
and nowhere else is not reported. -/
theorem warnings_translateUnits {settings : Settings} {units : List (String × String)}
    {bootstrap : Bool} {text : String}
    (h : (translateUnits settings units bootstrap).result = .ok text) :
    (translateUnits settings units bootstrap).warnings =
        (programWarnings [] units).map Warning.message ∧
      ∀ f, ((∃ first second, .repeated f first second ∈ programWarnings [] units) ↔
          2 ≤ units.countP fun u => decide (f ∈ declaredIn u.1 u.2)) ∧
        ∀ first second, .repeated f first second ∈ programWarnings [] units →
          2 ≤ (programFunctions units).count f ∧
            RepeatedIn units f first second := by
  refine ⟨warnings_translateUnits_of_ok h, fun f => ⟨?_, fun first second hmem => ?_⟩⟩
  · simp only [repeated_mem_programWarnings_iff]
    exact exists_repeatedIn_iff
  · have hrepeated := repeated_mem_programWarnings_iff.mp hmem
    exact ⟨hrepeated.two_le_count, hrepeated⟩

/-- Two units that declare the same function. -/
def sharedFunction : List (String × String) := [("A", "function f 0"), ("B", "function f 1")]

theorem warnings_translateUnits_sharedFunction :
    (∃ text, (translateUnits {} sharedFunction false).result = .ok text) ∧
      ∃ first second, (Warning.repeated "f" first second).message ∈
        (translateUnits {} sharedFunction false).warnings := by
  have hread : readUnit "function f 0" "A" = .ok [⟨.function "f" 0, ⟨0, 0⟩⟩] := by cbv
  have hread' : readUnit "function f 1" "B" = .ok [⟨.function "f" 1, ⟨0, 0⟩⟩] := by cbv
  obtain ⟨⟨codes, hcodes⟩, hdeclared⟩ := @exists_isUnitCode .unit _ _ _ _ hread rfl
  obtain ⟨⟨codes', hcodes'⟩, hdeclared'⟩ := @exists_isUnitCode .unit _ _ _ _ hread' rfl
  have hparts : IsProgramCode .unit sharedFunction [codes, codes'] :=
    .cons hcodes (.cons hcodes' .nil)
  have htext : ∃ text, (translateUnits {} sharedFunction false).result = .ok text :=
    ⟨_, translateUnits_eq_ok_iff.mpr ⟨.unit, _, rfl, hparts, by simp, rfl⟩⟩
  obtain ⟨text, hresult⟩ := htext
  obtain ⟨hwarnings, hrepeated⟩ := warnings_translateUnits hresult
  have hcount : 2 ≤ sharedFunction.countP fun u => decide ("f" ∈ declaredIn u.1 u.2) := by
    rw [sharedFunction, List.countP_cons, List.countP_singleton, hdeclared, hdeclared']
    decide
  obtain ⟨first, second, hmem⟩ := (hrepeated "f").1.mpr hcount
  exact ⟨⟨text, hresult⟩, first, second, hwarnings ▸ List.mem_map_of_mem hmem⟩

/-- A unit that declares a function twice. -/
def twiceDeclared : String := "function f 0 function f 1"

/-- The function is declared twice, and there is no warning. -/
theorem warnings_eq_nil_twiceDeclared :
    (∃ text, (translateUnits {} [("Main", twiceDeclared)] false).result = .ok text) ∧
      (programFunctions [("Main", twiceDeclared)]).count "f" = 2 ∧
      (translateUnits {} [("Main", twiceDeclared)] false).warnings = [] := by
  have hread : readUnit twiceDeclared "Main" = .ok
      [⟨.function "f" 0, ⟨0, 0⟩⟩, ⟨.function "f" 1, ⟨0, 13⟩⟩] := by cbv
  obtain ⟨codes, -, hresult, -, -, hfunctions, -⟩ := exists_program_of_readUnit hread rfl
  refine ⟨⟨_, hresult⟩, by rw [hfunctions]; decide, ?_⟩
  rw [warnings_translateUnits_of_ok hresult]
  simp [programWarnings, warningsBehind, firstDeclaring?, commandsIn_of_readUnit hread]

end HackVm
