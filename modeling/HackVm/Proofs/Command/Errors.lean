import HackVm.Files.Build
import HackVm.Proofs.Command.Attempts
import Mathlib

set_option autoImplicit false

/-! # Where errors stand

A complaint is about a token that the attempt has taken: the first one of the instruction where
the instruction as a whole is wrong, and the last one taken where an operand is (`Blames`). The
place of that token can be told from the text alone, so the message of an error names it exactly,
however many attempts were made before (`located_error_exact`).

One mistake has no place: a numeral with more digits than are converted. `FirstMistake` says, again
without a reader, what is wrong first in a unit; the unit fails with just that error
(`readUnit_eq_error_iff`), and the error has a place unless the instruction ends in such a numeral
(`readUnit_fails_at_first_mistake`). -/

namespace HackVm

open Text

/-! ## The token that is blamed -/

/-- Whether a complaint is about an instruction as a whole. -/
def Complaint.isAboutInstruction : Complaint → Bool
  | .invalidCommand _ | .outsideFunction _ => true
  | _ => false

/-- A numeral with more digits than are converted. -/
structure Token.IsOverlong (t : Token) : Prop where
  kind : t.kind = .number
  length : maxDigits < t.text.length

/-- The tokens `ts` are an instruction up to a numeral with too many digits. -/
def EndsOverlong (unit : String) (ts : List Token) : Prop :=
  ∃ (head : Token) (good : List Token) (bad : Token) (before after : List Slot) (what : String),
    ts = head :: (good ++ [bad]) ∧ head.kind = .identifier ∧
    operandSlots? head.text = some (before ++ .number what :: after) ∧
    List.Forall₂ (Slot.Fits unit) before good ∧ bad.IsOverlong

/-- The complaint `c`, made in `scope`, is about the token `t`, which was taken behind the tokens
`before`; the tokens `after` were taken behind it. -/
structure Blames (scope : Option Scope) (c : Complaint) (before : List Token) (t : Token)
    (after : List Token) : Prop where
  /-- The instruction is blamed at its first token, and an operand as soon as it is taken. -/
  place : if c.isAboutInstruction then before = [] else after = []
  ended : (∃ what, c = .ended what) ↔ t.kind = .endOfText
  /-- A function is only asked for where all operands are as they should be. -/
  outside : ∀ what, c = .outsideFunction what →
    scope = none ∧ ∃ i, Phrase.Spelled ⟨i, before ++ t :: after⟩

theorem Slot.exists_complaint_mismatch (unit what : String) (t : Token) :
    ∃ c, mismatch unit what t = .located unit (some t.position) c ∧
      ∀ scope before, Blames scope c before t [] := by
  unfold mismatch
  split
  · rename_i hend
    exact ⟨_, rfl, fun scope before => ⟨rfl, by simp [hend], by simp⟩⟩
  · rename_i hend
    exact ⟨_, rfl, fun scope before => ⟨rfl, by simp [hend], by simp⟩⟩

/-- A token at fault is blamed, or it is a numeral with too many digits. -/
theorem Slot.fault?_cases {slot : Slot} {unit : String} {t : Token} {e : ReadError}
    (h : slot.fault? unit t = some e) :
    (∃ c, e = .located unit (some t.position) c ∧ ∀ scope before, Blames scope c before t []) ∨
      ∃ what, slot = .number what ∧ t.IsOverlong ∧ e = .tooManyDigits t.text.length := by
  have hmismatch : ∀ what, some (mismatch unit what t) = some e →
      ∃ c, e = .located unit (some t.position) c ∧ ∀ scope before, Blames scope c before t [] := by
    intro what hsome
    obtain ⟨c, hc, hblames⟩ := exists_complaint_mismatch unit what t
    exact ⟨c, (Option.some.inj hsome).symm.trans hc, hblames⟩
  cases slot with
  | segment =>
    simp only [fault?] at h
    split at h
    · rename_i hkind
      split at h
      · cases h
      · obtain rfl := Option.some.inj h
        exact .inl ⟨_, rfl, fun scope before => ⟨rfl, by simp [hkind], by simp⟩⟩
    · exact .inl (hmismatch _ h)
  | word what =>
    simp only [fault?] at h
    split at h
    · cases h
    · exact .inl (hmismatch _ h)
  | number what =>
    simp only [fault?] at h
    split at h
    · rename_i hkind
      split at h
      · rename_i hlong
        exact .inr ⟨what, rfl, ⟨hkind, hlong⟩, (Option.some.inj h).symm⟩
      split at h
      · obtain rfl := Option.some.inj h
        exact .inl ⟨_, rfl, fun scope before => ⟨rfl, by simp [hkind], by simp⟩⟩
      · cases h
    · exact .inl (hmismatch _ h)
  | literal text what =>
    simp only [fault?] at h
    split at h
    · cases h
    · exact .inl (hmismatch _ h)

namespace Mistake

variable {unit : String} {scope : Option Scope} {ts : List Token} {e : ReadError}

/-- A mistake is blamed on one of its tokens, or it ends in a numeral with too many digits. -/
theorem blames_or_endsOverlong (h : Mistake unit scope ts e) :
    (∃ before t after c, ts = before ++ t :: after ∧ e = .located unit (some t.position) c ∧
      Blames scope c before t after) ∨
    EndsOverlong unit ts ∧ ∃ t, ts.getLast? = some t ∧ e = .tooManyDigits t.text.length := by
  cases h with
  | @start t present unknown =>
    exact .inl ⟨[], t, [], _, rfl, rfl, rfl, by simp [present], by simp⟩
  | @operand head bad good before after slot e word slots fits fault =>
    rcases Slot.fault?_cases fault with ⟨c, rfl, hblames⟩ | ⟨what, rfl, hlong, rfl⟩
    · exact .inl ⟨head :: good, bad, [], c, rfl, rfl, hblames scope (head :: good)⟩
    · refine .inr ⟨⟨head, good, bad, before, after, what, rfl, word, slots, fits, hlong⟩, bad, ?_,
        rfl⟩
      rw [← List.cons_append, List.getLast?_concat]
  | @outside head operands i cause spelled unresolved =>
    have hhead : head.kind ≠ .endOfText := spelled.kind_ne_endOfText head List.mem_cons_self
    refine .inl ⟨[], head, operands, _, rfl, rfl, rfl, by simp [hhead], fun what _ => ?_⟩
    exact ⟨Instruction.scope_eq_none_of_resolve unresolved, i, spelled⟩

/-- What is a mistake in a function is one everywhere. -/
theorem of_function {s : Scope} (h : Mistake unit (some s) ts e) (scope : Option Scope) :
    Mistake unit scope ts e := by
  cases h with
  | start present unknown => exact .start present unknown
  | operand word slots fits fault => exact .operand word slots fits fault
  | outside spelled unresolved => cases Instruction.scope_eq_none_of_resolve unresolved

end Mistake

/-! ## The place in the message -/

/-- What is wrong with the operands is found first, in a function or not. -/
theorem Reading.run_next_of_function {r : Reader} (hr : r.Genuine) {s : Scope} {e : ReadError}
    (h : (({ r with scope := some s } : Reader).run next).1 = .error e) :
    (r.run next).1 = .error e := by
  have hgenuine : Reader.Genuine { r with scope := some s } := hr
  obtain ⟨ts, hmistake, htook, -⟩ := mistake_of_run_next hgenuine h
  have htaken : ts <+: r.left := htook.taken
  obtain ⟨r', hrun⟩ := run_next_of_mistake hr htaken (hmistake.of_function r.scope)
  rw [hrun]

/-- The complaint `c` of an attempt that began at the reader `r` is about the token `t` of a text.
The attempt took the tokens `before`, then `t`, and then `after`; the tokens `earlier` stand before
those and the tokens `later` behind them, and `t` stands behind the characters `front`. -/
structure IsAbout (source : String) (r : Reader) (c : Complaint) (earlier before : List Token)
    (t : Token) (after later : List Token) (front : List Char) : Prop where
  tokens : tokenize source = earlier ++ (before ++ t :: after) ++ later
  left : r.left = (before ++ t :: after) ++ later
  took : r.Took (before ++ t :: after) (r.run Reading.next).2
  blames : Blames r.scope c before t after
  front : IsFront source (earlier ++ before) t front
  /-- With a function around the instruction the error would be this one or none. -/
  first : ∀ s e, (({ r with scope := some s } : Reader).run Reading.next).1 = .error e →
    (r.run Reading.next).1 = .error e

theorem ReadError.message_located (unit : String) (p : Position) (c : Complaint) :
    (ReadError.located unit (some p) c).message =
      unit ++ ":" ++ toString p.line ++ ":" ++ toString p.column ++ ": " ++ c.message := by
  have hmessage : (ReadError.located unit (some p) c).message =
      unit ++ ":" ++ p.text ++ ": " ++ c.message := rfl
  have hposition : p.text = toString p.line ++ ":" ++ toString p.column := rfl
  rw [hmessage, hposition]
  simp only [String.append_assoc]

/-- An attempt that fails with a complaint, whatever was attempted before, complains about a token
that it has taken. Its message begins with the place of that token, told from the characters before
it: the number of line feeds and the number of characters behind the last of them. -/
theorem located_error_exact (source unit : String) (n : Nat) {u : String} {p : Option Position}
    {c : Complaint}
    (h : (Reader.ofString source unit).attempt n = .error (.located u p c)) :
    ∃ earlier before t after later front,
      IsAbout source ((Reader.ofString source unit).afterAttempts n) c earlier before t after later
        front ∧
      u = unit ∧ p = some t.position ∧
      (ReadError.located u p c).message =
        unit ++ ":" ++ toString (front.count '\n') ++ ":" ++
          toString (front.reverse.takeWhile (· != '\n')).length ++ ": " ++ c.message := by
  have hwithin := Reader.within_afterAttempts source unit n
  rw [Reader.attempt] at h
  generalize (Reader.ofString source unit).afterAttempts n = r at h hwithin ⊢
  obtain ⟨ts, hmistake, htook, -⟩ := Reading.mistake_of_run_next hwithin.genuine h
  rcases hmistake.blames_or_endsOverlong with
    ⟨before, t, after, c', rfl, he, hblames⟩ | ⟨-, last, -, he⟩
  · obtain ⟨rfl, rfl, rfl⟩ := ReadError.located.inj he
    obtain ⟨later, hleft⟩ := htook.taken
    obtain ⟨earlier, hearlier⟩ := hwithin.left
    have htokens : tokenize source = earlier ++ (before ++ t :: after) ++ later := by
      rw [← hearlier, ← hleft, ← List.append_assoc]
    have hsplit : tokenize source = (earlier ++ before) ++ t :: (after ++ later) := by
      rw [htokens]
      simp only [List.append_assoc, List.cons_append]
    obtain ⟨front, hfront⟩ := exists_isFront hsplit
    refine ⟨earlier, before, t, after, later, front,
      ⟨htokens, hleft.symm, htook, hblames, hfront, ?_⟩, hwithin.unit, rfl, ?_⟩
    · exact fun s e => Reading.run_next_of_function hwithin.genuine
    · rw [ReadError.message_located, hwithin.unit, hfront.line, hfront.column]
  · cases he

/-- A label outside of any function, behind two mistakes. -/
def strayLabel : String := "mul 3\n  label A"

theorem located_error_exact_strayLabel :
    (Reader.ofString strayLabel "Main").attempt 2 =
        .error (.located "Main" (some ⟨1, 2⟩) (.outsideFunction "label")) ∧
      ∃ earlier before t after later front,
        IsAbout strayLabel ((Reader.ofString strayLabel "Main").afterAttempts 2)
          (.outsideFunction "label") earlier before t after later front ∧
        "Main:1:2: label outside function" =
          "Main" ++ ":" ++ toString (front.count '\n') ++ ":" ++
            toString (front.reverse.takeWhile (· != '\n')).length ++ ": " ++
              (Complaint.outsideFunction "label").message := by
  have h : (Reader.ofString strayLabel "Main").attempt 2 =
      .error (.located "Main" (some ⟨1, 2⟩) (.outsideFunction "label")) := by cbv
  obtain ⟨earlier, before, t, after, later, front, habout, -, -, hmessage⟩ :=
    located_error_exact strayLabel "Main" 2 h
  exact ⟨h, earlier, before, t, after, later, front, habout, hmessage⟩

/-! ## The first mistake of a unit -/

/-- The tokens `taken` are a mistake of a unit, and the phrases before them are read. -/
structure FirstMistake (source unit : String) (phrases : List Phrase) (taken : List Token)
    (e : ReadError) : Prop where
  tokens : phrases.flatMap Phrase.tokens ++ taken <+: tokenize source
  spelled : ∀ p ∈ phrases, p.Spelled
  resolved : ∃ statements, Resolves none phrases statements
  mistake : Mistake unit (Instruction.scopeAfter (phrases.map Phrase.instruction)) taken e

/-- The scope behind one more instruction. -/
theorem Instruction.scopeAfter_behind {before : List Instruction} {scope scope' : Option Scope}
    (hscope : scope = scopeAfter before) {i : Instruction} {c : Command}
    (h : i.resolve scope = .ok (c, scope')) : scope' = scopeAfter (before ++ [i]) := by
  rw [hscope] at h
  exact ((resolve_scopeAfter _ _).mp h).2

namespace Reader

theorem left_of_finish {r r' : Reader} {ts : List Token} (hpending : r.pending = ts ++ r'.pending)
    (hfinish : r'.finish = r.finish) : r.left = ts ++ r'.left := by
  rw [left, left, hpending, hfinish, List.append_assoc]

/-- A reader that fails has read phrases and then met a mistake. The induction is on the tokens
left and carries the instructions that were read already. -/
theorem mistake_of_readAll {r : Reader} (hr : r.Genuine) {before : List Instruction}
    (hscope : r.scope = Instruction.scopeAfter before) {e : ReadError}
    (h : r.readAll.failure = some e) :
    ∃ phrases taken, phrases.flatMap Phrase.tokens ++ taken <+: r.left ∧
      (∀ p ∈ phrases, p.Spelled) ∧ Resolves r.scope phrases r.readAll.statements ∧
      Mistake r.unit (Instruction.scopeAfter (before ++ phrases.map Phrase.instruction)) taken
        e := by
  fun_induction Reader.readAll r generalizing before with
  | case1 r s r' hnext others ih =>
    have hattempt := Reading.attempt_run_next hr
    rw [hnext] at hattempt
    obtain _ | _ | @⟨p, _, _, spelled, pending, position, resolved, took⟩ := hattempt
    have hscope' := Instruction.scopeAfter_behind hscope resolved
    obtain ⟨ps, taken, htokens, hspelled, hresolves, hmistake⟩ := ih (hr.append pending) hscope' h
    refine ⟨p :: ps, taken, ?_, List.forall_mem_cons.mpr ⟨spelled, hspelled⟩,
      .cons resolved position hresolves, ?_⟩
    · rw [List.flatMap_cons, List.append_assoc, left_of_finish pending took.finish]
      exact (List.prefix_append_right_inj p.tokens).mpr htokens
    · rw [took.unit, List.append_assoc, List.singleton_append] at hmistake
      exact hmistake
  | case2 r r' hnext => cases h
  | case3 r e' r' hnext =>
    obtain rfl := Option.some.inj h
    obtain ⟨ts, hmistake, htook, -⟩ := Reading.mistake_of_run_next hr (congrArg Prod.fst hnext)
    refine ⟨[], ts, htook.taken, List.forall_mem_nil _, .nil _, ?_⟩
    rw [List.map_nil, List.append_nil, ← hscope]
    exact hmistake

/-- A mistake behind phrases that are read is the error. The induction is on the phrases. -/
theorem readAll_of_mistake {r : Reader} (hr : r.Genuine) {before : List Instruction}
    (hscope : r.scope = Instruction.scopeAfter before) {phrases : List Phrase}
    {statements : List Statement} {taken : List Token} {e : ReadError}
    (htokens : phrases.flatMap Phrase.tokens ++ taken <+: r.left)
    (hspelled : ∀ p ∈ phrases, p.Spelled) (hresolves : Resolves r.scope phrases statements)
    (hmistake : Mistake r.unit
      (Instruction.scopeAfter (before ++ phrases.map Phrase.instruction)) taken e) :
    r.readAll.failure = some e := by
  induction phrases generalizing r before statements with
  | nil =>
    rw [List.map_nil, List.append_nil, ← hscope] at hmistake
    obtain ⟨r', hrun⟩ := Reading.run_next_of_mistake hr htokens hmistake
    rw [readAll_of_run_next_error hrun]
  | cons p ps ih =>
    obtain _ | ⟨resolved, position, others⟩ := hresolves
    obtain ⟨hp, hps⟩ := List.forall_mem_cons.mp hspelled
    rw [List.flatMap_cons, List.append_assoc] at htokens
    obtain ⟨rest, hrest⟩ :=
      prefix_pending ((List.prefix_append _ _).trans htokens) hp.kind_ne_endOfText
    obtain ⟨r', hnext, rfl, hscope'⟩ :=
      Reading.run_next_of_phrase hr hp hrest.symm position resolved
    obtain ⟨ts, htook⟩ := exists_took (Reading.attempt_run_next hr)
    rw [hnext] at htook
    rw [left_of_finish hrest.symm htook.finish, List.prefix_append_right_inj] at htokens
    have hbehind : r'.scope = Instruction.scopeAfter (before ++ [p.instruction]) :=
      hscope'.trans (Instruction.scopeAfter_behind hscope resolved)
    rw [readAll_of_run_next hnext]
    refine ih (hr.append hrest.symm) hbehind htokens hps (hscope' ▸ others) ?_
    rw [htook.unit, List.append_assoc, List.singleton_append]
    exact hmistake

end Reader

theorem readUnit_eq_error_iff_failure {source unit : String} {e : ReadError} :
    readUnit source unit = .error e ↔
      (Reader.ofString source unit).readAll.failure = some e := by
  unfold readUnit
  dsimp only
  split
  · rename_i e' he
    rw [he, Option.some.injEq, Except.error.injEq]
  · rename_i hnone
    simp [hnone]

/-- A unit fails with its first mistake. -/
theorem readUnit_eq_error_iff {source unit : String} {e : ReadError} :
    readUnit source unit = .error e ↔
      ∃ phrases taken, FirstMistake source unit phrases taken e := by
  rw [readUnit_eq_error_iff_failure]
  have hgenuine := genuine_ofString source unit
  have hleft := Reader.left_ofString source unit
  have hscope : (Reader.ofString source unit).scope = Instruction.scopeAfter [] := rfl
  constructor
  · intro h
    obtain ⟨phrases, taken, htokens, hspelled, hresolves, hmistake⟩ :=
      Reader.mistake_of_readAll hgenuine hscope h
    exact ⟨phrases, taken, hleft ▸ htokens, hspelled, ⟨_, hresolves⟩, hmistake⟩
  · rintro ⟨phrases, taken, htokens, hspelled, ⟨statements, hresolves⟩, hmistake⟩
    exact Reader.readAll_of_mistake hgenuine hscope (hleft ▸ htokens) hspelled hresolves hmistake

/-! ## Numerals with too many digits -/

theorem Token.IsOverlong.fault? {t : Token} (h : t.IsOverlong) (unit what : String) :
    (Slot.number what).fault? unit t = some (.tooManyDigits t.text.length) := by
  simp [Slot.fault?, h.kind, h.length]

/-- A numeral with too many digits is a mistake, wherever it ends an instruction. -/
theorem EndsOverlong.exists_mistake {unit : String} {ts : List Token} (h : EndsOverlong unit ts) :
    ∃ t, ts.getLast? = some t ∧ ∀ scope, Mistake unit scope ts (.tooManyDigits t.text.length) := by
  obtain ⟨head, good, bad, before, after, what, rfl, hword, hslots, hfits, hlong⟩ := h
  refine ⟨bad, ?_, fun scope => .operand hword hslots hfits (hlong.fault? unit what)⟩
  rw [← List.cons_append, List.getLast?_concat]

/-- A unit is read, or it fails at its first mistake. The error is one in the form of the text and
has a place and a message, unless the mistake is a numeral with too many digits: that error is one
in what the text says and has no place. -/
theorem readUnit_fails_at_first_mistake (source unit : String) :
    (∃ statements, readUnit source unit = .ok statements) ∨
      ∃ e phrases taken, readUnit source unit = .error e ∧
        FirstMistake source unit phrases taken e ∧
        (¬ EndsOverlong unit taken → ∃ position complaint,
          e = .located unit (some position) complaint ∧
          (BuildError.program (.reading e)).errorClass = .form ∧
          e.message = unit ++ ":" ++ toString position.line ++ ":" ++ toString position.column ++
            ": " ++ complaint.message) ∧
        (EndsOverlong unit taken → ∃ t, taken.getLast? = some t ∧
          e = .tooManyDigits t.text.length ∧
          (BuildError.program (.reading e)).errorClass = .content) := by
  cases hread : readUnit source unit with
  | ok statements => exact .inl ⟨statements, rfl⟩
  | error e =>
    obtain ⟨phrases, taken, hfirst⟩ := readUnit_eq_error_iff.mp hread
    refine .inr ⟨e, phrases, taken, rfl, hfirst, fun hshort => ?_, fun hlong => ?_⟩
    · rcases hfirst.mistake.blames_or_endsOverlong with
        ⟨before, t, after, c, -, rfl, -⟩ | ⟨hlong, -⟩
      · exact ⟨t.position, c, rfl, rfl, ReadError.message_located _ _ _⟩
      · exact absurd hlong hshort
    · obtain ⟨t, hlast, hmistake⟩ := hlong.exists_mistake
      have hother : readUnit source unit = .error (.tooManyDigits t.text.length) :=
        readUnit_eq_error_iff.mpr ⟨phrases, taken, { hfirst with mistake := hmistake _ }⟩
      obtain rfl := Except.error.inj (hread.symm.trans hother)
      exact ⟨t, hlast, rfl, rfl⟩

/-- The cut of a push of a constant that is written with the digits `ds`. -/
def pushCut (ds : List Char) : Cut :=
  ⟨[⟨[], .identifier, ['p', 'u', 's', 'h']⟩,
    ⟨[' '], .identifier, ['c', 'o', 'n', 's', 't', 'a', 'n', 't']⟩, ⟨[' '], .number, ds⟩], []⟩

theorem valid_pushCut {ds : List Char} (hne : ds ≠ []) (hdigits : ∀ c ∈ ds, c.isDigit = true) :
    (pushCut ds).Valid := by
  refine ⟨⟨⟨.nil _, ?_⟩, ⟨.blank (by decide) (.nil _), ?_⟩, ⟨.blank (by decide) (.nil _), ?_⟩,
    trivial⟩, .nil _⟩
  · exact .identifier rfl (List.all_eq_true.mp rfl) (by simp [Piece.chars]; rfl)
  · exact .identifier rfl (List.all_eq_true.mp rfl) (by simp [Piece.chars]; rfl)
  · exact .number hne hdigits (by simp [pushCut])

/-- A push of a constant with too many digits fails without a place. -/
theorem readUnit_push_of_overlong {ds : List Char} (hdigits : ∀ c ∈ ds, c.isDigit = true)
    (hlong : maxDigits < ds.length) (unit : String) :
    readUnit ("push constant " ++ String.ofList ds) unit = .error (.tooManyDigits ds.length) := by
  have hne : ds ≠ [] := List.ne_nil_of_length_pos (Nat.zero_lt_of_lt hlong)
  have hsource : (pushCut ds).source = ("push constant " ++ String.ofList ds).toList := by
    rw [String.toList_append, String.toList_ofList]
    simp [pushCut, Cut.source, Piece.chars]
  have htokens := (valid_pushCut hne hdigits).tokenize_eq hsource
  let bad : Token := ⟨.number, String.ofList ds, ⟨0, 14⟩⟩
  let taken : List Token := [⟨.identifier, "push", ⟨0, 0⟩⟩, ⟨.identifier, "constant", ⟨0, 5⟩⟩, bad]
  have hmistake : Mistake unit none taken (.tooManyDigits ds.length) := by
    have hbad : bad.IsOverlong := ⟨rfl, by rwa [String.length_ofList]⟩
    have hfault := hbad.fault? unit "segment index"
    rw [String.length_ofList] at hfault
    have hslots : operandSlots? "push" = some ([.segment] ++ .number "segment index" :: []) := rfl
    have hfits : List.Forall₂ (Slot.Fits unit) [.segment] [⟨.identifier, "constant", ⟨0, 5⟩⟩] :=
      .cons rfl .nil
    exact .operand rfl hslots hfits hfault
  refine readUnit_eq_error_iff.mpr ⟨[], taken, ?_, List.forall_mem_nil _, ⟨_, .nil _⟩, hmistake⟩
  rw [htokens]
  exact List.prefix_append _ _

/-- A push of a constant with 4301 digits. -/
def overlongPush : String := "push constant " ++ String.ofList (List.replicate 4301 '1')

/-- That error is none in the form of the text and has no place. -/
theorem not_located_overlongPush :
    readUnit overlongPush "Main" = .error (.tooManyDigits 4301) ∧
      (BuildError.program (.reading (.tooManyDigits 4301))).errorClass = .content ∧
      ¬ ∃ position complaint,
        readUnit overlongPush "Main" = .error (.located "Main" (some position) complaint) := by
  have hread : readUnit overlongPush "Main" = .error (.tooManyDigits 4301) := by
    have hdigits : ∀ c ∈ List.replicate 4301 '1', c.isDigit = true := by
      intro c hc
      rw [List.eq_of_mem_replicate hc]
      rfl
    have hlength : (List.replicate 4301 '1').length = 4301 := List.length_replicate
    have hlong : maxDigits < (List.replicate 4301 '1').length := by
      rw [hlength]
      decide
    have herror := readUnit_push_of_overlong hdigits hlong "Main"
    rwa [hlength] at herror
  refine ⟨hread, rfl, ?_⟩
  rintro ⟨position, complaint, hlocated⟩
  cases hread.symm.trans hlocated

end HackVm
