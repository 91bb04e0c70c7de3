import HackVm.Proofs.Command.Operands

set_option autoImplicit false

/-! # What can be wrong with an instruction

A reader gives up an instruction for one of three reasons (`Mistake`): no instruction begins so, an
operand is at fault, or the instruction is complete and needs a function but stands outside of
any. The operands come first: the third reason is given only where none of them is at fault.

`Attempt` says all that an attempt at a command can do to a reader: at the end of the text
nothing, else it takes the tokens of a mistake, and leaves scope and declarations alone, or those
of a phrase. `attempt_run_next` finds the attempt that was made, and `run_next_of_mistake` says
that every mistake in front of a reader is found. -/

namespace HackVm

/-- The tokens `ts` are taken for an instruction in `scope`, which turns out to be wrong at the last
of them, and `e` is the error. -/
inductive Mistake (unit : String) (scope : Option Scope) : List Token → ReadError → Prop
  /-- No instruction begins with the token. -/
  | start {t : Token} (present : t.kind ≠ .endOfText)
      (unknown : t.kind = .identifier → operandSlots? t.text = none) :
      Mistake unit scope [t] (.located unit (some t.position) (.invalidCommand t))
  /-- The last token is at fault in its slot, and those before it fit theirs. -/
  | operand {head bad : Token} {good : List Token} {before after : List Slot} {slot : Slot}
      {e : ReadError} (word : head.kind = .identifier)
      (slots : operandSlots? head.text = some (before ++ slot :: after))
      (fits : List.Forall₂ (Slot.Fits unit) before good) (fault : slot.fault? unit bad = some e) :
      Mistake unit scope (head :: (good ++ [bad])) e
  /-- The instruction is spelled as it should be and needs a function. -/
  | outside {head : Token} {operands : List Token} {i : Instruction} {cause : ScopeError}
      (spelled : Phrase.Spelled ⟨i, head :: operands⟩)
      (unresolved : i.resolve scope = .error cause) :
      Mistake unit scope (head :: operands)
        (.located unit (some head.position) (.outsideFunction cause.subject))

/-- No token of an instruction stands for the end of the text. -/
theorem Phrase.Spelled.kind_ne_endOfText {p : Phrase} (h : p.Spelled) :
    ∀ t ∈ p.tokens, t.kind ≠ .endOfText := by
  obtain ⟨i, ts⟩ := p
  obtain ⟨operands, hlexemes, hoperands⟩ := h
  have hkinds : ∀ l ∈ ts.map Token.lexeme, l.1 ≠ .endOfText := by
    rw [hlexemes, List.forall_mem_cons]
    refine ⟨by simp, ?_⟩
    cases i with
    | push segment n | pop segment n | function name n | call callee n =>
      obtain ⟨numeral, -, rfl⟩ := hoperands
      simp
    | _ =>
      cases hoperands
      simp
  intro t ht
  exact hkinds t.lexeme (List.mem_map_of_mem ht)

/-! ## Attempts -/

/-- The reader `r'` has taken the tokens `ts` that stood in front of the reader `r`. -/
structure Reader.Took (r : Reader) (ts : List Token) (r' : Reader) : Prop where
  taken : ts <+: r.left
  pending : r'.pending = r.pending.drop ts.length
  current : r'.current = ts.getLast?.or r.current
  unit : r'.unit = r.unit
  finish : r'.finish = r.finish

theorem Reader.took_behind {r : Reader} {ts : List Token} (h : ts <+: r.left) :
    r.Took ts (r.behind ts) := ⟨h, rfl, rfl, rfl, rfl⟩

/-- What an attempt at a command gives, and the reader that it leaves. -/
inductive Attempt (r : Reader) : Except ReadError (Option Statement) → Reader → Prop
  /-- There is no token left. -/
  | finished (pending : r.pending = []) : Attempt r (.ok none) (r.behind r.left)
  | failed {ts : List Token} {e : ReadError} {r' : Reader}
      (mistake : Mistake r.unit r.scope ts e) (took : r.Took ts r') (context : r.SameContext r') :
      Attempt r (.error e) r'
  | read {p : Phrase} {s : Statement} {r' : Reader} (spelled : p.Spelled)
      (pending : r.pending = p.tokens ++ r'.pending)
      (position : p.tokens.head?.map Token.position = some s.position)
      (resolved : p.instruction.resolve r.scope = .ok (s.command, r'.scope))
      (took : r.Took p.tokens r') : Attempt r (.ok (some s)) r'

/-! ## Behind the first word -/

/-- The reader behind the first word of an instruction. -/
def Reader.started (r : Reader) (head : Token) : Reader :=
  { r.behind [head] with head := some head }

namespace Reader

variable {r : Reader} {head : Token} {pending : List Token}

theorem pending_started (h : r.pending = head :: pending) : (r.started head).pending = pending :=
  pending_behind h

theorem Genuine.started (hr : r.Genuine) (h : r.pending = head :: pending) :
    (r.started head).Genuine :=
  have hsplit : r.pending = [head] ++ (r.started head).pending :=
    h.trans (congrArg _ (pending_started h).symm)
  hr.append hsplit

theorem took_started (h : r.pending = head :: pending) {ts : List Token}
    (hts : ts <+: (r.started head).left) : r.Took (head :: ts) ((r.started head).behind ts) := by
  have hleft : r.left = [head] ++ (r.started head).left := left_of_pending h
  refine ⟨?_, ?_, ?_, rfl, rfl⟩
  · rw [hleft, ← List.singleton_append]
    exact (List.prefix_append_right_inj [head]).mpr hts
  · exact congrArg Reader.pending (behind_behind r [head] ts)
  · exact congrArg Reader.current (behind_behind r [head] ts)

end Reader

namespace Reading

variable {r : Reader} {head : Token} {pending : List Token}

/-- A token that is no name begins no command. -/
theorem run_next_of_start (hpending : r.pending = head :: pending) (hkind : head.kind ≠ .identifier)
    (hend : head.kind ≠ .endOfText) :
    r.run next =
      (.error (.located r.unit (some head.position) (.invalidCommand head)), r.behind [head]) := by
  unfold next
  rw [run_bind, run_advance, Reader.take_of_cons hpending]
  dsimp only
  split
  · contradiction
  · contradiction
  · rfl

/-- A name begins an instruction, which is read and settled. -/
theorem run_next_of_head (hpending : r.pending = head :: pending)
    (hkind : head.kind = .identifier) :
    r.run next = (r.started head).run
      (instruction head >>= fun i => settle i >>= fun c => return some ⟨c, head.position⟩) := by
  rw [run_next_cons hpending hkind]
  simp [Reader.started, Reader.behind, hpending]

theorem run_settle_of_error {i : Instruction} {cause : ScopeError}
    (h : i.resolve r.scope = .error cause) :
    r.run (settle i) = (.error (.located r.unit ((r.head <|> r.current).map Token.position)
      (.outsideFunction cause.subject)), r) := by
  have hscope : r.scope = none := Instruction.scope_eq_none_of_resolve h
  refine run_settle_eq_error_iff.mpr ⟨cause, hscope ▸ h, ?_⟩
  simp only [run_requireScope, hscope, run_complain]

/-- An attempt fails as the instruction does. -/
theorem run_next_of_instruction_error (hpending : r.pending = head :: pending)
    (hkind : head.kind = .identifier) {e : ReadError} {r' : Reader}
    (h : (r.started head).run (instruction head) = (.error e, r')) :
    r.run next = (.error e, r') := by
  rw [run_next_of_head hpending hkind, run_bind, h]

/-- A complete instruction that needs a function is an error at its first word. -/
theorem run_next_of_unresolved (hpending : r.pending = head :: pending)
    (hkind : head.kind = .identifier) {i : Instruction} {good : List Token}
    (h : (r.started head).run (instruction head) = (.ok i, (r.started head).behind good))
    {cause : ScopeError} (hresolve : i.resolve r.scope = .error cause) :
    r.run next = (.error (.located r.unit (some head.position) (.outsideFunction cause.subject)),
      (r.started head).behind good) := by
  rw [run_next_of_head hpending hkind, run_bind, h]
  dsimp only
  rw [run_bind, run_settle_of_error (r := (r.started head).behind good) hresolve]
  rfl

/-- A complete instruction is read. -/
theorem run_next_of_resolved (hpending : r.pending = head :: pending)
    (hkind : head.kind = .identifier) {i : Instruction} {good : List Token}
    (h : (r.started head).run (instruction head) = (.ok i, (r.started head).behind good))
    {c : Command} {scope : Option Scope} (hresolve : i.resolve r.scope = .ok (c, scope)) :
    r.run next = (.ok (some ⟨c, head.position⟩),
      { (r.started head).behind good with
        scope, declared := Reader.declaredWith ((r.started head).behind good) i }) := by
  rw [run_next_of_head hpending hkind, run_bind, h]
  dsimp only
  rw [run_bind, run_settle_of_resolve (r := (r.started head).behind good) hresolve]
  rfl

/-- The tokens taken for an instruction spell it. -/
theorem spelled_of_run_instruction (hr : r.Genuine) (hpending : r.pending = head :: pending)
    (hkind : head.kind = .identifier) {i : Instruction} {good : List Token}
    (h : (r.started head).run (instruction head) = (.ok i, (r.started head).behind good))
    (htaken : good <+: (r.started head).pending) :
    Phrase.Spelled ⟨i, head :: good⟩ ∧
      r.pending = (head :: good) ++ ((r.started head).behind good).pending := by
  obtain ⟨ts, ⟨hkeyword, hoperands⟩, hts, -⟩ :=
    (recognizes_instruction head).sound (hr.started hpending) h
  obtain ⟨rest, hrest⟩ := htaken
  have hbehind : ((r.started head).behind good).pending = rest := Reader.pending_behind hrest.symm
  obtain rfl : good = ts := List.append_cancel_right (hrest.trans (hbehind ▸ hts))
  refine ⟨⟨good.map Token.lexeme, ?_, hoperands⟩, ?_⟩
  · rw [List.map_cons, Token.lexeme, hkind, hkeyword]
  · rw [List.cons_append, ← hts, Reader.pending_started hpending]
    exact hpending

/-- An attempt whose operands are as they should be. -/
theorem attempt_of_instruction (hr : r.Genuine) (hpending : r.pending = head :: pending)
    (hkind : head.kind = .identifier) {i : Instruction} {good : List Token}
    (h : (r.started head).run (instruction head) = (.ok i, (r.started head).behind good))
    (htaken : good <+: (r.started head).pending) : Attempt r (r.run next).1 (r.run next).2 := by
  obtain ⟨hspelled, hsplit⟩ := spelled_of_run_instruction hr hpending hkind h htaken
  have hfront : good <+: (r.started head).left :=
    htaken.trans (r.started head).pending_prefix_left
  have htook := Reader.took_started hpending hfront
  cases hresolve : i.resolve r.scope with
  | error cause =>
    rw [run_next_of_unresolved hpending hkind h hresolve]
    exact .failed (.outside hspelled hresolve) htook ⟨rfl, rfl⟩
  | ok result =>
    rw [run_next_of_resolved hpending hkind h hresolve]
    exact .read hspelled hsplit rfl hresolve ⟨htook.taken, htook.pending, htook.current, rfl, rfl⟩

/-- An attempt at a command that begins with the first word of an instruction. -/
theorem attempt_of_head (hr : r.Genuine) (hpending : r.pending = head :: pending)
    (hkind : head.kind = .identifier) {slots : List Slot}
    (hslots : operandSlots? head.text = some slots) :
    Attempt r (r.run next).1 (r.run next).2 := by
  rcases (r.started head).fill_cases (slots_of_operandSlots? hslots).2 with
    ⟨good, hgood, htaken, hfill⟩ |
      ⟨before, slot, after, good, bad, e, rfl, hgood, hbad, htaken, hfill⟩
  · obtain ⟨i, hi⟩ := (fills_instruction hslots).of_fits hfill
    exact attempt_of_instruction hr hpending hkind hi htaken
  · rw [run_next_of_instruction_error hpending hkind ((fills_instruction hslots).of_fault hfill)]
    exact .failed (.operand hkind hslots hgood hbad) (Reader.took_started hpending htaken)
      ⟨rfl, rfl⟩

/-- Every attempt at a command is one of these. -/
theorem attempt_run_next (hr : r.Genuine) : Attempt r (r.run next).1 (r.run next).2 := by
  cases hpending : r.pending with
  | nil =>
    have hleft := Reader.left_of_nil hpending
    rw [run_next_nil hpending, Reader.take_of_nil hpending, ← hleft]
    exact .finished hpending
  | cons head pending =>
    have hend : head.kind ≠ .endOfText := (hr head (hpending ▸ List.mem_cons_self)).1
    have htook : [head] <+: r.left := Reader.prefix_left hpending
    by_cases hkind : head.kind = .identifier
    · cases hslots : operandSlots? head.text with
      | some slots => exact attempt_of_head hr hpending hkind hslots
      | none =>
        rw [run_next_of_instruction_error hpending hkind (run_instruction_of_none hslots _)]
        refine .failed (.start hend fun _ => hslots) ?_ ⟨rfl, rfl⟩
        exact Reader.took_started hpending List.nil_prefix
    · rw [run_next_of_start hpending hkind hend]
      exact .failed (.start hend fun h => absurd h hkind) (Reader.took_behind htook) ⟨rfl, rfl⟩

theorem mistake_of_run_next (hr : r.Genuine) {e : ReadError} (h : (r.run next).1 = .error e) :
    ∃ ts, Mistake r.unit r.scope ts e ∧ r.Took ts (r.run next).2 ∧
      r.SameContext (r.run next).2 := by
  have hattempt := attempt_run_next hr
  rw [h] at hattempt
  generalize (r.run next).2 = r' at hattempt ⊢
  obtain _ | ⟨mistake, took, context⟩ | _ := hattempt
  exact ⟨_, mistake, took, context⟩

/-! ## Every mistake is found -/

theorem behind_of_run_instruction {r r' : Reader} {head : Token} {i : Instruction}
    (h : r.run (instruction head) = (.ok i, r')) : ∃ good, r' = r.behind good := by
  cases hslots : operandSlots? head.text with
  | none =>
    rw [run_instruction_of_none hslots] at h
    cases h
  | some slots =>
    rcases r.fill_cases (slots_of_operandSlots? hslots).2 with
      ⟨good, -, -, hfill⟩ | ⟨before, slot, after, good, bad, e, -, -, -, -, hfill⟩
    · obtain ⟨i', hi'⟩ := (fills_instruction hslots).of_fits hfill
      exact ⟨good, (Prod.mk.inj (h.symm.trans hi')).2⟩
    · rw [(fills_instruction hslots).of_fault hfill] at h
      cases h

/-- A mistake in front of a reader is the error of the attempt. -/
theorem run_next_of_mistake {r : Reader} (hr : r.Genuine) {ts : List Token} {e : ReadError}
    (hts : ts <+: r.left) (h : Mistake r.unit r.scope ts e) :
    ∃ r', r.run next = (.error e, r') := by
  cases h with
  | @start head present unknown =>
    obtain ⟨rest, hrest⟩ := Reader.prefix_pending hts (List.forall_mem_singleton.mpr present)
    by_cases hkind : head.kind = .identifier
    · exact ⟨_, run_next_of_instruction_error hrest.symm hkind
        (run_instruction_of_none (unknown hkind) _)⟩
    · exact ⟨_, run_next_of_start hrest.symm hkind present⟩
  | @operand head bad good before after slot e word slots fits fault =>
    have hpresent : head.kind ≠ .endOfText := by simp [word]
    obtain ⟨rest, hrest⟩ : [head] <+: r.pending :=
      Reader.prefix_pending (List.IsPrefix.trans ⟨good ++ [bad], rfl⟩ hts)
        (List.forall_mem_singleton.mpr hpresent)
    have hfront : good ++ [bad] <+: (r.started head).left := by
      have hleft : r.left = [head] ++ (r.started head).left := Reader.left_of_pending hrest.symm
      rw [hleft] at hts
      exact (List.prefix_append_right_inj [head]).mp hts
    have hfill : (r.started head).fill (before ++ slot :: after) =
        (.error e, (r.started head).behind (good ++ [bad])) :=
      Reader.fill_of_fault fits fault hfront
    exact ⟨_, run_next_of_instruction_error hrest.symm word
      ((fills_instruction slots).of_fault hfill)⟩
  | @outside head operands i cause spelled unresolved =>
    obtain ⟨rest, hrest⟩ := Reader.prefix_pending hts spelled.kind_ne_endOfText
    obtain ⟨ls, hlexemes, hoperands⟩ := spelled
    obtain ⟨hhead, rfl⟩ := List.cons.inj hlexemes
    obtain ⟨hkind, htext⟩ := Prod.mk.inj hhead
    have hstarted : (r.started head).pending = operands ++ rest := Reader.pending_started hrest.symm
    obtain ⟨r₁, hrun, -, -⟩ := (recognizes_instruction head).complete
      (hr.started hrest.symm) ⟨htext.symm, hoperands⟩ hstarted
    obtain ⟨good, rfl⟩ := behind_of_run_instruction hrun
    exact ⟨_, run_next_of_unresolved hrest.symm hkind hrun unresolved⟩

end Reading

end HackVm
