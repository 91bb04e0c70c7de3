import HackVm.Proofs.Command.Recognition
import Mathlib.Data.List.Forall2

set_option autoImplicit false

/-! # Operands token by token

Behind the first word of an instruction stands one token for each of its operands, and a word or
a sign may stand between. `Slot` says what is expected at such a place, `Slot.fault?` what is wrong
with the token that is there, and `operandSlots?` which slots a first word is followed by. A reader
fills the slots from the left and stops behind the first token that is at fault (`Reader.fill`);
reading an instruction does just that (`fills_instruction`). -/

namespace HackVm

/-! ## Slots -/

/-- What is expected at one place behind the first word of an instruction. -/
inductive Slot
  | segment
  | word (what : String)
  | number (what : String)
  /-- One particular word or sign. -/
  | literal (text what : String)
  deriving DecidableEq, Repr

namespace Slot

/-- The error for a token that is of the wrong kind. -/
def mismatch (unit what : String) (t : Token) : ReadError :=
  .located unit (some t.position)
    (if t.kind = .endOfText then .ended what else .expected what t.text)

/-- What is wrong with a token in a slot. -/
def fault? (unit : String) (t : Token) : Slot → Option ReadError
  | .segment =>
    if t.kind = .identifier then
      if (Segment.ofKeyword? t.text).isSome then none
      else some (.located unit (some t.position) (.invalidSegment t.text))
    else some (mismatch unit "memory segment" t)
  | .word what => if t.kind = .identifier then none else some (mismatch unit what t)
  | .number what =>
    if t.kind = .number then
      let value := Nat.ofDigitChars 10 t.text.toList 0
      if maxDigits < t.text.length then some (.tooManyDigits t.text.length)
      else if Memory.maxIndex < value then
        some (.located unit (some t.position) (.outOfRange what value))
      else none
    else some (mismatch unit what t)
  | .literal text what => if t.text = text then none else some (mismatch unit what t)

/-- A token that is as it should be in a slot. -/
def Fits (unit : String) (slot : Slot) (t : Token) : Prop := slot.fault? unit t = none

end Slot

/-- The slots behind the first word of an instruction; nothing if no instruction begins so. -/
def operandSlots? (keyword : String) : Option (List Slot) :=
  match Operation.ofKeyword? keyword with
  | some _ => some []
  | none =>
    match keyword with
    | "push" | "pop" => some [.segment, .number "segment index"]
    | "label" | "goto" => some [.word "label"]
    | "if" => some [.literal "-" "if-goto", .literal "goto" "if-goto", .word "label"]
    | "function" => some [.word "function name", .number "local variable count"]
    | "call" => some [.word "function name", .number "argument count"]
    | "return" => some []
    | _ => none

/-- Three slots at most, and a token is needed for each. -/
theorem slots_of_operandSlots? {keyword : String} {slots : List Slot}
    (h : operandSlots? keyword = some slots) :
    slots.length ≤ 3 ∧ ∀ slot ∈ slots, ∀ what, slot ≠ .literal "" what := by
  unfold operandSlots? at h
  split at h
  · cases h
    simp
  split at h <;> cases h <;> simp

/-! ## Tokens in front of a reader -/

namespace Reader

/-- The tokens that are left, the one for the end of the text included. -/
def left (r : Reader) : List Token := r.pending ++ [⟨.endOfText, "", r.finish⟩]

/-- The reader behind tokens that it has taken. -/
def behind (r : Reader) (ts : List Token) : Reader :=
  { r with pending := r.pending.drop ts.length, current := ts.getLast?.or r.current }

theorem behind_behind (r : Reader) (ts us : List Token) :
    (r.behind ts).behind us = r.behind (ts ++ us) := by
  simp only [behind, List.drop_drop, List.length_append, List.getLast?_append, Option.or_assoc]

theorem pending_behind {r : Reader} {ts rest : List Token} (h : r.pending = ts ++ rest) :
    (r.behind ts).pending = rest := by
  rw [behind, h, List.drop_left]

theorem left_of_pending {r : Reader} {ts rest : List Token} (h : r.pending = ts ++ rest) :
    r.left = ts ++ (r.behind ts).left := by
  rw [left, left, pending_behind h, h, List.append_assoc]
  rfl

theorem take_of_cons {r : Reader} {t : Token} {pending : List Token}
    (h : r.pending = t :: pending) : r.take = (t, r.behind [t]) := by
  simp [take, behind, h]

theorem take_of_nil {r : Reader} (h : r.pending = []) :
    r.take = (⟨.endOfText, "", r.finish⟩, r.behind [⟨.endOfText, "", r.finish⟩]) := by
  simp [take, behind, h]

theorem prefix_left {r : Reader} {t : Token} {pending : List Token}
    (h : r.pending = t :: pending) : [t] <+: r.left := by
  rw [left, h]
  exact ⟨_, rfl⟩

theorem pending_prefix_left (r : Reader) : r.pending <+: r.left := List.prefix_append _ _

theorem left_of_nil {r : Reader} (h : r.pending = []) : r.left = [⟨.endOfText, "", r.finish⟩] := by
  rw [left, h, List.nil_append]

theorem take_of_prefix {r : Reader} {t : Token} {ts : List Token} (h : t :: ts <+: r.left) :
    r.take = (t, r.behind [t]) := by
  cases hpending : r.pending with
  | nil =>
    rw [left_of_nil hpending] at h
    obtain rfl := (List.cons_prefix_cons.mp h).1
    exact take_of_nil hpending
  | cons u pending =>
    rw [left, hpending] at h
    obtain rfl := (List.cons_prefix_cons.mp h).1
    exact take_of_cons hpending

/-- Tokens that do not stand for the end of the text are in the text. -/
theorem prefix_pending {r : Reader} {ts : List Token} (h : ts <+: r.left)
    (hkind : ∀ t ∈ ts, t.kind ≠ .endOfText) : ts <+: r.pending := by
  rcases List.prefix_concat_iff.mp h with rfl | hpending
  · exact absurd rfl (hkind ⟨.endOfText, "", r.finish⟩ (by simp))
  · exact hpending

/-- All tokens in front of a reader but the last are in the text. -/
theorem prefix_pending_of_concat {r : Reader} {ts : List Token} {t : Token}
    (h : ts ++ [t] <+: r.left) : ts <+: r.pending := by
  rcases List.prefix_concat_iff.mp ((List.prefix_append ts [t]).trans h) with rfl | hpending
  · have hlength := h.length_le
    simp [left] at hlength
  · exact hpending

end Reader

/-! ## Filling slots -/

/-- Takes a token for each slot, up to the first one that is at fault. -/
def Reader.fill (r : Reader) : List Slot → Except ReadError Unit × Reader
  | [] => (.ok (), r)
  | slot :: slots =>
    match slot.fault? r.unit r.take.1 with
    | some e => (.error e, r.take.2)
    | none => r.take.2.fill slots

/-- The end of the text is at fault in every slot but one for an empty text. -/
theorem Slot.not_fits_of_endOfText {slot : Slot} (hslot : ∀ what, slot ≠ .literal "" what)
    (unit : String) {t : Token} (hkind : t.kind = .endOfText) (htext : t.text = "") :
    ¬ slot.Fits unit t := by
  cases slot with
  | literal text what =>
    have hne : "" ≠ text := fun h => hslot what (by rw [h])
    simp [Fits, fault?, htext, hne]
  | _ => simp [Fits, fault?, hkind]

/-- Every token in the slots fits, or the first that does not is the last one taken. The induction
is on the slots. -/
theorem Reader.fill_cases (r : Reader) {slots : List Slot}
    (hslots : ∀ slot ∈ slots, ∀ what, slot ≠ .literal "" what) :
    (∃ good, List.Forall₂ (Slot.Fits r.unit) slots good ∧ good <+: r.pending ∧
      r.fill slots = (.ok (), r.behind good)) ∨
    ∃ before slot after good bad e, slots = before ++ slot :: after ∧
      List.Forall₂ (Slot.Fits r.unit) before good ∧ slot.fault? r.unit bad = some e ∧
      good ++ [bad] <+: r.left ∧ r.fill slots = (.error e, r.behind (good ++ [bad])) := by
  induction slots generalizing r with
  | nil => exact .inl ⟨[], .nil, List.nil_prefix, rfl⟩
  | cons slot slots ih =>
    rw [List.forall_mem_cons] at hslots
    rw [fill]
    cases hpending : r.pending with
    | nil =>
      rw [take_of_nil hpending]
      cases hfault : slot.fault? r.unit ⟨.endOfText, "", r.finish⟩ with
      | some e =>
        refine .inr ⟨[], slot, slots, [], _, e, rfl, .nil, hfault, ?_, rfl⟩
        rw [left_of_nil hpending]
        exact List.prefix_rfl
      | none => exact absurd hfault (Slot.not_fits_of_endOfText hslots.1 r.unit rfl rfl)
    | cons t pending =>
      rw [take_of_cons hpending]
      cases hfault : slot.fault? r.unit t with
      | some e =>
        exact .inr ⟨[], slot, slots, [], t, e, rfl, .nil, hfault, prefix_left hpending, rfl⟩
      | none =>
        have hpending' : (r.behind [t]).pending = pending := pending_behind hpending
        have hleft : r.left = [t] ++ (r.behind [t]).left := left_of_pending hpending
        rcases ih (r.behind [t]) hslots.2 with
          ⟨good, hgood, htaken, hfill⟩ |
            ⟨before, s, after, good, bad, e, rfl, hgood, hbad, htaken, hfill⟩
        · refine .inl ⟨t :: good, .cons hfault hgood, ?_, ?_⟩
          · rw [hpending'] at htaken
            exact List.cons_prefix_cons.mpr ⟨rfl, htaken⟩
          · dsimp only
            rw [hfill, behind_behind, List.singleton_append]
        · refine .inr ⟨slot :: before, s, after, t :: good, bad, e, rfl, .cons hfault hgood, hbad,
            ?_, ?_⟩
          · rw [hleft, List.cons_append]
            exact List.cons_prefix_cons.mpr ⟨rfl, htaken⟩
          · dsimp only
            rw [hfill, behind_behind, List.singleton_append, List.cons_append]

/-- Tokens that fit are taken. -/
theorem Reader.fill_of_fits {r : Reader} {slots : List Slot} {good : List Token}
    (hgood : List.Forall₂ (Slot.Fits r.unit) slots good) (hpending : good <+: r.pending)
    (more : List Slot) : r.fill (slots ++ more) = (r.behind good).fill more := by
  induction slots generalizing r good with
  | nil =>
    cases hgood
    rfl
  | cons slot slots ih =>
    obtain _ | ⟨hfit, hrest⟩ := hgood
    rename_i t good
    obtain ⟨rest, hrest'⟩ := hpending
    have hcons : r.pending = t :: (good ++ rest) := hrest'.symm
    have hbehind : (r.behind [t]).pending = good ++ rest := pending_behind hcons
    rw [List.cons_append, fill, take_of_cons hcons]
    dsimp only
    rw [hfit]
    dsimp only
    have hprefix : good <+: (r.behind [t]).pending := ⟨rest, hbehind.symm⟩
    rw [ih (r := r.behind [t]) hrest hprefix, behind_behind, List.singleton_append]

/-- The first token that is at fault is the last one taken. -/
theorem Reader.fill_of_fault {r : Reader} {before after : List Slot} {slot : Slot}
    {good : List Token} {bad : Token} {e : ReadError}
    (hgood : List.Forall₂ (Slot.Fits r.unit) before good) (hbad : slot.fault? r.unit bad = some e)
    (hleft : good ++ [bad] <+: r.left) :
    r.fill (before ++ slot :: after) = (.error e, r.behind (good ++ [bad])) := by
  obtain ⟨rest, hrest⟩ := prefix_pending_of_concat hleft
  have hfront : [bad] <+: (r.behind good).left := by
    rw [left_of_pending hrest.symm] at hleft
    exact (List.prefix_append_right_inj good).mp hleft
  rw [fill_of_fits hgood ⟨rest, hrest⟩, fill, take_of_prefix hfront]
  dsimp only
  have hunit : (r.behind good).unit = r.unit := rfl
  rw [hunit, hbad]
  dsimp only
  rw [behind_behind]

/-! ## Steps that fill slots -/

namespace Reading

variable {α β : Type}

/-- A step that takes one token and fails just if that is at fault in a slot. -/
def Takes (step : Reading α) (slot : Slot) : Prop :=
  ∀ r : Reader, (∃ a, slot.Fits r.unit r.take.1 ∧ r.run step = (.ok a, r.take.2)) ∨
    ∃ e, slot.fault? r.unit r.take.1 = some e ∧ r.run step = (.error e, r.take.2)

/-- A step that fills slots and does nothing else to a reader. -/
def Fills (step : Reading α) (slots : List Slot) : Prop :=
  ∀ r : Reader, ((r.run step).1.map fun _ => (), (r.run step).2) = r.fill slots

theorem Fills.pure (a : α) : Fills (Pure.pure a) [] := fun _ => rfl

theorem Takes.bind {step : Reading α} {slot : Slot} {f : α → Reading β} {slots : List Slot}
    (hs : Takes step slot) (hf : ∀ a, Fills (f a) slots) : Fills (step >>= f) (slot :: slots) := by
  intro r
  rw [run_bind, Reader.fill]
  rcases hs r with ⟨a, hfits, hstep⟩ | ⟨e, hfault, hstep⟩
  · rw [hstep, hfits]
    exact hf a r.take.2
  · rw [hstep, hfault]
    rfl

theorem Fills.of_fits {step : Reading α} {slots : List Slot} (h : Fills step slots)
    {r r' : Reader} (hfill : r.fill slots = (.ok (), r')) : ∃ a, r.run step = (.ok a, r') := by
  obtain ⟨hresult, hreader⟩ := Prod.mk.inj ((h r).trans hfill)
  cases hstep : (r.run step).1 with
  | ok a => exact ⟨a, Prod.ext hstep hreader⟩
  | error e =>
    rw [hstep] at hresult
    cases hresult

theorem Fills.of_fault {step : Reading α} {slots : List Slot} (h : Fills step slots)
    {r r' : Reader} {e : ReadError} (hfill : r.fill slots = (.error e, r')) :
    r.run step = (.error e, r') := by
  obtain ⟨hresult, hreader⟩ := Prod.mk.inj ((h r).trans hfill)
  cases hstep : (r.run step).1 with
  | ok a =>
    rw [hstep] at hresult
    cases hresult
  | error e' =>
    rw [hstep] at hresult
    cases hresult
    exact Prod.ext hstep hreader

/-- A complaint without a token is about the token taken last. -/
theorem run_complain_take (r : Reader) (c : Complaint) :
    r.take.2.run (complain none c : Reading α) =
      (.error (.located r.unit (some r.take.1.position) c), r.take.2) := by
  rw [run_complain]
  unfold Reader.take
  split <;> rfl

theorem run_unexpected_take (r : Reader) (what : String) :
    r.take.2.run (unexpected what r.take.1 : Reading α) =
      (.error (Slot.mismatch r.unit what r.take.1), r.take.2) := by
  unfold unexpected Slot.mismatch
  split <;> exact run_complain_take r _

/-- A step that takes a token and looks at it once. -/
theorem takes_checked {slot : Slot} {what : String} {P : Token → Prop} [DecidablePred P]
    (hslot : ∀ unit t, slot.fault? unit t =
      if P t then none else some (Slot.mismatch unit what t)) :
    Takes (advance >>= fun t => if P t then return t else unexpected what t) slot := by
  intro r
  rw [run_bind, run_advance, Slot.Fits, hslot]
  dsimp only
  split
  · exact .inl ⟨_, rfl, rfl⟩
  · exact .inr ⟨_, rfl, run_unexpected_take r what⟩

theorem takes_word (what : String) : Takes (word what) (.word what) :=
  takes_checked fun _ _ => rfl

theorem takes_literal (text what : String) : Takes (literal text what) (.literal text what) :=
  takes_checked fun _ _ => rfl

theorem takes_number (what : String) : Takes (number what) (.number what) := by
  intro r
  rw [number, run_bind, run_advance]
  dsimp only [Slot.Fits, Slot.fault?]
  split
  · split
    · exact .inr ⟨_, rfl, rfl⟩
    split
    · exact .inr ⟨_, rfl, run_complain_take r _⟩
    · exact .inl ⟨_, rfl, rfl⟩
  · exact .inr ⟨_, rfl, run_unexpected_take r what⟩

theorem takes_segment : Takes segment .segment := by
  intro r
  have hword : r.run (word "memory segment") =
      if r.take.1.kind = .identifier then (.ok r.take.1, r.take.2)
      else (.error (Slot.mismatch r.unit "memory segment" r.take.1), r.take.2) := by
    rw [word, run_bind, run_advance]
    dsimp only
    split
    · rfl
    · exact run_unexpected_take r _
  rw [segment, run_bind, hword]
  dsimp only [Slot.Fits, Slot.fault?]
  split
  · dsimp only
    cases Segment.ofKeyword? r.take.1.text with
    | some s => exact .inl ⟨s, rfl, rfl⟩
    | none => exact .inr ⟨_, rfl, run_complain_take r _⟩
  · exact .inr ⟨_, rfl, rfl⟩

/-- Reading an instruction fills the slots behind its first word. -/
theorem fills_instruction {head : Token} {slots : List Slot}
    (h : operandSlots? head.text = some slots) : Fills (instruction head) slots := by
  unfold instruction
  split
  · rename_i op hop
    simp only [operandSlots?, hop, Option.some.injEq] at h
    subst h
    exact .pure _
  rename_i hop
  simp only [operandSlots?, hop] at h
  split
  all_goals
    rename_i htext
    simp only [htext, Option.some.injEq, reduceCtorEq] at h
  · subst h
    exact takes_segment.bind fun s => (takes_number _).bind fun n => .pure _
  · subst h
    exact takes_segment.bind fun s => (takes_number _).bind fun n => .pure _
  · subst h
    exact (takes_word _).bind fun t => .pure _
  · subst h
    exact (takes_word _).bind fun t => .pure _
  · subst h
    exact (takes_literal _ _).bind fun t => (takes_literal _ _).bind fun u =>
      (takes_word _).bind fun v => .pure _
  · subst h
    exact (takes_word _).bind fun t => (takes_number _).bind fun n => .pure _
  · subst h
    exact (takes_word _).bind fun t => (takes_number _).bind fun n => .pure _
  · subst h
    exact .pure _

/-- No instruction begins with another word. -/
theorem run_instruction_of_none {head : Token} (h : operandSlots? head.text = none) (r : Reader) :
    r.run (instruction head) =
      (.error (.located r.unit (some head.position) (.invalidCommand head)), r) := by
  unfold instruction
  split
  · rename_i op hop
    simp only [operandSlots?, hop, reduceCtorEq] at h
  rename_i hop
  simp only [operandSlots?, hop] at h
  split
  all_goals
    rename_i htext
    simp only [htext, reduceCtorEq] at h
  rfl

end Reading

end HackVm
