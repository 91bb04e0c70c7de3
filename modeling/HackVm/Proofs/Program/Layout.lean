import HackVm.Proofs.Command.Errors
import HackVm.Proofs.Command.Layout
import HackVm.Proofs.Program.FirstError

set_option autoImplicit false

/-! # Layout

Blanks, comments and line ends decide where the tokens of a text stand and nothing else. What a unit
is translated to does not depend on them: lowering keeps what reading has forgotten
(`unitBlocks_unplaced`), so two texts with the same kinds and texts of tokens give the same notices
and the same assembly, or errors that differ in their places only (`mapError_translateString`).
A place shows in a message as the line and the column behind the unit, and `withoutPlace` takes
them off. -/

namespace HackVm

open Text

/-! ## Lowering without places -/

def ProgramError.unplaced : ProgramError → ProgramError
  | .reading cause => .reading cause.unplaced
  | .lowering unit _ cause => .lowering unit .start cause
  | e => e

theorem Report.mapError_bind {ε ε' α β : Type} (f : ε → ε') (r : Report ε α)
    (g : α → Report ε β) : (r >>= g).mapError f = r.mapError f >>= fun a => (g a).mapError f := by
  obtain ⟨notices, result⟩ := r
  cases result <;> rfl

theorem Report.mapError_ofExcept {ε ε' α : Type} (f : ε → ε') (r : Except ε α) :
    (Report.ofExcept r).mapError f = Report.ofExcept (r.mapError f) := rfl

/-- Lowering does not look at places. The induction is on the statements. -/
theorem lowerStatements_unplaced (unit : String) (g : Generator) (statements : List Statement) :
    lowerStatements unit g (statements.map Statement.unplaced) =
      (lowerStatements unit g statements).mapError ProgramError.unplaced := by
  induction statements generalizing g with
  | nil => rfl
  | cons s rest ih =>
    rw [List.map_cons, lowerStatements, lowerStatements]
    have hcommand : s.unplaced.command = s.command := rfl
    rw [hcommand]
    cases g.lower s.command with
    | error cause => rfl
    | ok result =>
      obtain ⟨body, g'⟩ := result
      dsimp only
      rw [ih]
      cases lowerStatements unit g' rest <;> rfl

theorem unitBlocks_unplaced (scope : StaticScope) (unit : String) (readout : Readout) :
    unitBlocks scope unit readout.unplaced =
      (unitBlocks scope unit readout).mapError ProgramError.unplaced := by
  unfold unitBlocks
  have hstatements : readout.unplaced.statements = readout.statements.map Statement.unplaced :=
    rfl
  have hfailure : readout.unplaced.failure = readout.failure.map ReadError.unplaced := rfl
  rw [hstatements, hfailure, lowerStatements_unplaced]
  cases lowerStatements unit (.enter scope unit) readout.statements <;>
    cases readout.failure <;> rfl

/-- A unit is translated in the same way whatever the places are, which show in its error only. -/
theorem mapError_translateUnit (scope : StaticScope) {source source' unit : String}
    (h : (Reader.ofString source unit).readAll.unplaced =
      (Reader.ofString source' unit).readAll.unplaced) :
    (translateUnit scope unit source).mapError ProgramError.unplaced =
      (translateUnit scope unit source').mapError ProgramError.unplaced := by
  have hblocks : (unitBlocks scope unit (Reader.ofString source unit).readAll).mapError
        ProgramError.unplaced =
      (unitBlocks scope unit (Reader.ofString source' unit).readAll).mapError
        ProgramError.unplaced := by
    rw [← unitBlocks_unplaced, ← unitBlocks_unplaced, h]
  have hdeclared : (Reader.ofString source unit).readAll.unplaced.reader.declared =
      (Reader.ofString source' unit).readAll.unplaced.reader.declared := by rw [h]
  have hnames : (Reader.ofString source unit).readAll.reader.declaredByName =
      (Reader.ofString source' unit).readAll.reader.declaredByName :=
    congrArg (List.mergeSort · fun a b => decide (a ≤ b)) hdeclared
  unfold translateUnit
  simp only [Report.mapError_bind, Report.mapError_ofExcept, hblocks, hnames]

theorem mapError_translateString (settings : Settings) {source source' : String}
    (h : (tokenize source).map Token.lexeme = (tokenize source').map Token.lexeme)
    (unit : String) :
    (translateString settings source unit).mapError ProgramError.unplaced =
      (translateString settings source' unit).mapError ProgramError.unplaced := by
  unfold translateString
  simp only [Report.mapError_bind, mapError_translateUnit _ (Reader.readAll_congr h unit)]

/-! ## Messages without places -/

/-- What stands behind a numeral and a mark, if a text begins with them. -/
def behindNumeral? (mark cs : List Char) : Option (List Char) :=
  if cs.head?.any Char.isDigit then (cs.dropWhile Char.isDigit).dropPrefix? mark else none

/-- A message without the unit, line and column in front of it, if they are there. -/
def withoutPlace (unit message : String) : String :=
  let behind := do
    let cs ← message.toList.dropPrefix? (unit ++ ":").toList
    let cs ← behindNumeral? [':'] cs
    behindNumeral? [':', ' '] cs
  behind.elim message String.ofList

theorem behindNumeral?_numeral (n : Nat) {c : Char} (hc : c.isDigit = false) (mark cs : List Char) :
    behindNumeral? (c :: mark) ((toString n).toList ++ (c :: mark) ++ cs) = some cs := by
  have hdigits : ∀ d ∈ (toString n).toList, d.isDigit = true :=
    fun d hd => isDigit_of_mem_toString hd
  have hbehind : ((toString n).toList ++ (c :: mark) ++ cs).dropWhile Char.isDigit =
      c :: mark ++ cs := by
    rw [List.append_assoc, List.dropWhile_append_of_pos hdigits, List.cons_append,
      List.dropWhile_cons_of_neg (by rw [hc]; exact Bool.false_ne_true)]
  have hfirst : (((toString n).toList ++ (c :: mark) ++ cs).head?.any Char.isDigit) = true := by
    cases hlist : (toString n).toList with
    | nil =>
      rw [Nat.toString_eq_ofList_toDigits, String.toList_ofList] at hlist
      exact absurd hlist Nat.toDigits_ne_nil
    | cons d ds => exact hdigits d (hlist ▸ List.mem_cons_self)
  rw [behindNumeral?, if_pos hfirst, hbehind]
  exact List.dropPrefix?_append_of_beq cs (beq_self_eq_true _)

theorem withoutPlace_placed (unit : String) (p : Position) (message : String) :
    withoutPlace unit (unit ++ ":" ++ p.text ++ ": " ++ message) = message := by
  have hlist : (unit ++ ":" ++ p.text ++ ": " ++ message).toList =
      (unit ++ ":").toList ++ ((toString p.line).toList ++ [':'] ++
        ((toString p.column).toList ++ [':', ' '] ++ message.toList)) := by
    simp [Position.text]
  rw [withoutPlace, hlist, List.dropPrefix?_append_of_beq _ (beq_self_eq_true _)]
  dsimp only [Option.bind_eq_bind, Option.bind_some]
  rw [behindNumeral?_numeral _ (by decide), Option.bind_some,
    behindNumeral?_numeral _ (by decide), Option.elim_some, String.ofList_toList]

namespace ProgramError

/-- An error that has its place in a unit, if it has one. -/
def InUnit (unit : String) : ProgramError → Prop
  | .reading (.located u _ _) => u = unit
  | .lowering u _ _ => u = unit
  | _ => True

theorem errorClass_unplaced (e : ProgramError) :
    (BuildError.program e.unplaced).errorClass = (BuildError.program e).errorClass := by
  cases e with
  | reading cause => cases cause <;> rfl
  | _ => rfl

/-- The place shows in front of a message only. -/
theorem InUnit.withoutPlace_unplaced {unit : String} {e : ProgramError} (h : e.InUnit unit) :
    withoutPlace unit e.unplaced.message = withoutPlace unit e.message := by
  cases e with
  | reading cause =>
    cases cause with
    | located u position c =>
      obtain rfl : u = unit := h
      cases position with
      | none => exact congrArg (fun s => withoutPlace u (u ++ ": " ++ s)) c.message_unplaced
      | some p =>
        exact (withoutPlace_placed u .start c.unplaced.message).trans
          (c.message_unplaced.trans (withoutPlace_placed u p c.message).symm)
    | tooManyDigits count => rfl
  | lowering u p cause =>
    obtain rfl : u = unit := h
    exact (withoutPlace_placed u .start cause.message).trans
      (withoutPlace_placed u p cause.message).symm
  | _ => rfl

end ProgramError

/-- Reading a unit fails in that unit. -/
theorem inUnit_of_readUnit {source unit : String} {e : ReadError}
    (h : readUnit source unit = .error e) : (ProgramError.reading e).InUnit unit := by
  obtain ⟨phrases, taken, hfirst⟩ := readUnit_eq_error_iff.mp h
  rcases hfirst.mistake.blames_or_endsOverlong with
    ⟨before, t, after, c, -, rfl, -⟩ | ⟨-, t, -, rfl⟩
  · rfl
  · trivial

theorem inUnit_of_translateString {settings : Settings} {source unit : String} {e : ProgramError}
    (h : (translateString settings source unit).result = .error e) : e.InUnit unit := by
  cases hscope : StaticScope.ofSetting settings.staticScope with
  | error e' =>
    have hresult : (Report.ofExcept (StaticScope.ofSetting settings.staticScope)).result =
        .error e' := hscope
    rw [translateString, Report.bind_of_error hresult] at h
    cases h
    unfold StaticScope.ofSetting at hscope
    split at hscope
    · cases hscope
    · cases hscope
      trivial
  | ok scope =>
    rcases firstRefusal?_of_result_eq_error hscope h with hrefusal | ⟨-, cause, hread, rfl⟩
    · obtain ⟨-, s, -, cause, -, -, -, rfl⟩ := firstRefusal?_eq_some_iff.mp hrefusal
      rfl
    · exact inUnit_of_readUnit hread

/-! ## Two texts -/

/-- Two texts whose tokens have the same kinds and texts are translated with the same notices, to
the same assembly or else to errors of one class, whose messages are the same without the places. -/
theorem translateString_indifferent_to_layout {source source' : String}
    (h : (tokenize source).map Token.lexeme = (tokenize source').map Token.lexeme)
    (settings : Settings) (unit : String) :
    let report := translateString settings source unit
    let report' := translateString settings source' unit
    report.notices = report'.notices ∧
      ((∃ assembly, report.result = .ok assembly ∧ report'.result = .ok assembly) ∨
        ∃ e e', report.result = .error e ∧ report'.result = .error e' ∧
          (BuildError.program e).errorClass = (BuildError.program e').errorClass ∧
          withoutPlace unit e.message = withoutPlace unit e'.message) := by
  intro report report'
  have hreports : report.mapError ProgramError.unplaced = report'.mapError ProgramError.unplaced :=
    mapError_translateString settings h unit
  have hnotices : report.notices = report'.notices := (Report.mk.inj hreports).1
  have hresults : report.result.mapError ProgramError.unplaced =
      report'.result.mapError ProgramError.unplaced := (Report.mk.inj hreports).2
  refine ⟨hnotices, ?_⟩
  cases hresult : report.result with
  | ok assembly =>
    cases hresult' : report'.result with
    | ok assembly' =>
      rw [hresult, hresult'] at hresults
      cases hresults
      exact .inl ⟨assembly, rfl, rfl⟩
    | error e' =>
      rw [hresult, hresult'] at hresults
      cases hresults
  | error e =>
    cases hresult' : report'.result with
    | ok assembly' =>
      rw [hresult, hresult'] at hresults
      cases hresults
    | error e' =>
      rw [hresult, hresult'] at hresults
      have hunplaced : e.unplaced = e'.unplaced := Except.error.inj hresults
      refine .inr ⟨e, e', rfl, rfl, ?_, ?_⟩
      · rw [← e.errorClass_unplaced, hunplaced, e'.errorClass_unplaced]
      · rw [← (inUnit_of_translateString hresult).withoutPlace_unplaced, hunplaced,
          (inUnit_of_translateString hresult').withoutPlace_unplaced]

/-- A label outside of a function, on the line of the command before it. -/
def tightUnit : String := "add label x"

/-- The same with a comment, and the label on a line of its own. -/
def looseUnit : String := "add // label\n\n  label\tx\n"

theorem translateString_indifferent_to_layout_looseUnit :
    (tokenize tightUnit).map Token.lexeme = (tokenize looseUnit).map Token.lexeme ∧
      ∃ e e', (translateString {} tightUnit "Main").result = .error e ∧
        (translateString {} looseUnit "Main").result = .error e' ∧
        e.message = "Main:0:4: label outside function" ∧
        e'.message = "Main:2:2: label outside function" ∧
        withoutPlace "Main" e.message = withoutPlace "Main" e'.message := by
  have hlexemes : (tokenize tightUnit).map Token.lexeme =
      (tokenize looseUnit).map Token.lexeme := by cbv
  have hplaces : (translateString {} tightUnit "Main").result =
      .error (.reading (.located "Main" (some ⟨0, 4⟩) (.outsideFunction "label"))) ∧
      (translateString {} looseUnit "Main").result =
      .error (.reading (.located "Main" (some ⟨2, 2⟩) (.outsideFunction "label"))) := by
    constructor <;> cbv
  refine ⟨hlexemes, ?_⟩
  obtain ⟨-, ⟨assembly, hassembly, -⟩ | ⟨e, e', he, he', -, hmessages⟩⟩ :=
    translateString_indifferent_to_layout hlexemes {} "Main"
  · cases hplaces.1.symm.trans hassembly
  · cases he.symm.trans hplaces.1
    cases he'.symm.trans hplaces.2
    exact ⟨_, _, he, he', by decide, by decide, hmessages⟩

end HackVm
