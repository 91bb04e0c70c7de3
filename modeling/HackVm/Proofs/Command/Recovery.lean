import HackVm.Proofs.Command.Attempts

set_option autoImplicit false

/-! # Going on after errors

An attempt that fails leaves the scope and the declarations as they were, so the instructions
behind an error are read as if it was not there: the call sites of a function are numbered from
zero without a gap, however many attempts fail between them (`Reader.exists_calls`). Every attempt
but those at the end of the text takes one to four tokens, so there are no more of them than tokens
and the end is reached. `recovers_ofString` puts this together. -/

namespace HackVm

/-! ## How many tokens are taken -/

theorem Instruction.SpelledOperands.length_le {i : Instruction} {ls : List (TokenKind × String)}
    (h : i.SpelledOperands ls) : ls.length ≤ 3 := by
  cases i with
  | push segment n | pop segment n | function name n | call callee n =>
    obtain ⟨numeral, -, rfl⟩ := h
    simp
  | _ =>
    cases h
    simp

theorem Phrase.Spelled.length {p : Phrase} (h : p.Spelled) :
    1 ≤ p.tokens.length ∧ p.tokens.length ≤ 4 := by
  obtain ⟨operands, hlexemes, hoperands⟩ := h
  have hlength := congrArg List.length hlexemes
  rw [List.length_map, List.length_cons] at hlength
  have hle := hoperands.length_le
  omega

theorem Mistake.length {unit : String} {scope : Option Scope} {ts : List Token} {e : ReadError}
    (h : Mistake unit scope ts e) : 1 ≤ ts.length ∧ ts.length ≤ 4 := by
  cases h with
  | start present unknown => exact ⟨Nat.le_refl _, by simp⟩
  | @operand head bad good before after slot e word slots fits fault =>
    have hslots := (slots_of_operandSlots? slots).1
    have hgood := fits.length_eq
    simp only [List.length_append, List.length_cons, List.length_nil] at hslots ⊢
    omega
  | outside spelled unresolved => exact spelled.length

/-! ## Scopes -/

/-- The address that a call returns to. -/
def Command.returnAddress? : Command → Option String
  | .call _ _ returnAddress => some returnAddress
  | _ => none

/-- The command that an attempt has read. -/
def readCommand? : Except ReadError (Option Statement) → Option Command
  | .ok (some s) => some s.command
  | _ => none

theorem Instruction.scope_of_resolve_function {i : Instruction} {scope scope' : Option Scope}
    {f : String} {n : Int} (h : i.resolve scope = .ok (.function f n, scope')) :
    scope' = some (.enter f) := by
  cases scope <;> cases i <;> cases h <;> rfl

/-- Inside a function, an instruction that declares none is given the next return address if it is
a call, and else leaves the scope alone. -/
theorem Instruction.scope_of_resolve {i : Instruction} {s : Scope} {c : Command}
    {scope : Option Scope} (h : i.resolve (some s) = .ok (c, scope)) (hc : c.declares? = none) :
    c.returnAddress? = none ∧ scope = some s ∨
      c.returnAddress? = some s.returnAddress ∧ scope = some s.called := by
  cases i with
  | function name n =>
    cases h
    cases hc
  | call callee n =>
    cases h
    exact .inr ⟨rfl, rfl⟩
  | _ =>
    cases h
    exact .inl ⟨rfl, rfl⟩

namespace Attempt

variable {r r' : Reader} {result : Except ReadError (Option Statement)}

/-- An attempt inside a function that declares none. -/
theorem scope (h : Attempt r result r') {s : Scope} (hscope : r.scope = some s)
    (hdeclares : ∀ c, readCommand? result = some c → c.declares? = none) :
    (readCommand? result).bind Command.returnAddress? = none ∧ r'.scope = some s ∨
      (readCommand? result).bind Command.returnAddress? = some s.returnAddress ∧
        r'.scope = some s.called := by
  cases h with
  | finished pending => exact .inl ⟨rfl, hscope⟩
  | failed mistake took context => exact .inl ⟨rfl, context.scope.trans hscope⟩
  | read spelled pending position resolved took =>
    rw [hscope] at resolved
    exact Instruction.scope_of_resolve resolved (hdeclares _ rfl)

/-- An attempt that does not find the end takes tokens, and there were some in the text. -/
theorem progress (h : Attempt r result r') (hresult : result ≠ .ok none) :
    ∃ ts, 1 ≤ ts.length ∧ ts.length ≤ 4 ∧ r.Took ts r' := by
  cases h with
  | finished pending => exact absurd rfl hresult
  | failed mistake took context => exact ⟨_, mistake.length.1, mistake.length.2, took⟩
  | read spelled pending position resolved took =>
    exact ⟨_, spelled.length.1, spelled.length.2, took⟩

end Attempt

namespace Reader

variable {r : Reader}

/-- The commands read in the `n` attempts behind the first `m`. -/
def commandsFrom (r : Reader) (m n : Nat) : List Command :=
  (List.range n).filterMap fun k => readCommand? (r.attempt (m + k))

theorem commandsFrom_succ (r : Reader) (m n : Nat) :
    r.commandsFrom m (n + 1) = r.commandsFrom m n ++ (readCommand? (r.attempt (m + n))).toList := by
  rw [commandsFrom, List.range_succ, List.filterMap_append]
  cases h : readCommand? (r.attempt (m + n)) <;> simp [commandsFrom, h]

/-- The call sites of a function are numbered from zero. The induction is on the attempts, and the
scope behind them counts the calls. -/
theorem exists_calls (hr : ∀ n, (r.afterAttempts n).Genuine) {m : Nat} {f : String}
    (hscope : (r.afterAttempts m).scope = some (.enter f)) {n : Nat}
    (hdeclares : ∀ c ∈ r.commandsFrom m n, c.declares? = none) :
    ∃ calls, (r.afterAttempts (m + n)).scope = some ⟨f, calls⟩ ∧
      (r.commandsFrom m n).filterMap Command.returnAddress? =
        (List.range calls).map fun k => (Scope.mk f k).returnAddress := by
  induction n with
  | zero => exact ⟨0, hscope, rfl⟩
  | succ n ih =>
    rw [commandsFrom_succ, List.forall_mem_append] at hdeclares
    obtain ⟨calls, hcalls, haddresses⟩ := ih hdeclares.1
    have hlast : ∀ c, readCommand? (r.attempt (m + n)) = some c → c.declares? = none :=
      fun c hc => hdeclares.2 c (Option.mem_toList.mpr hc)
    have hfilter : (readCommand? (r.attempt (m + n))).toList.filterMap Command.returnAddress? =
        ((readCommand? (r.attempt (m + n))).bind Command.returnAddress?).toList := by
      cases readCommand? (r.attempt (m + n)) with
      | none => rfl
      | some c => cases hc : c.returnAddress? <;> simp [hc]
    rw [commandsFrom_succ, List.filterMap_append, haddresses, hfilter]
    rcases (Reading.attempt_run_next (hr (m + n))).scope hcalls hlast with
      ⟨hnone, hscope'⟩ | ⟨haddress, hscope'⟩
    · refine ⟨calls, hscope', ?_⟩
      rw [attempt, hnone, Option.toList_none, List.append_nil]
    · refine ⟨calls + 1, hscope', ?_⟩
      rw [attempt, haddress, List.range_succ, List.map_append]
      rfl

/-! ## The end of the text -/

theorem attempt_of_nil {n : Nat} (h : (r.afterAttempts n).pending = []) : r.attempt n = .ok none :=
  congrArg Prod.fst (Reading.run_next_nil h)

theorem pending_afterAttempts_of_nil {n : Nat} (h : (r.afterAttempts n).pending = []) {k : Nat}
    (hk : n ≤ k) : (r.afterAttempts k).pending = [] := by
  induction k, hk using Nat.le_induction with
  | base => exact h
  | succ k hk ih =>
    rw [afterAttempts, Reading.run_next_nil ih, Reading.pending_take, ih, List.tail_nil]

/-- Each attempt leaves fewer tokens until there are none. -/
theorem length_pending_afterAttempts (hr : ∀ n, (r.afterAttempts n).Genuine) (n : Nat) :
    (r.afterAttempts n).pending = [] ∨
      (r.afterAttempts n).pending.length + n ≤ r.pending.length := by
  induction n with
  | zero => exact .inr (Nat.le_refl _)
  | succ n ih =>
    by_cases hnil : (r.afterAttempts n).pending = []
    · exact .inl (pending_afterAttempts_of_nil hnil (Nat.le_succ n))
    · have hresult : r.attempt n ≠ .ok none := fun h =>
        hnil (Reading.pending_of_run_next_none (hr n) (Prod.ext h rfl))
      obtain ⟨ts, hpos, -, htook⟩ := (Reading.attempt_run_next (hr n)).progress hresult
      have hbefore := ih.resolve_left hnil
      have hsome := List.length_pos_iff.mpr hnil
      right
      rw [afterAttempts, htook.pending, List.length_drop]
      omega

end Reader

/-! ## Recovering -/

/-- A reader of a text with `size` tokens left, whose attempts at commands are made one behind the
other, whatever comes of them. -/
structure Recovers (r : Reader) (size : Nat) : Prop where
  /-- Attempts that fail leave the scope and the declarations alone. -/
  context : ∀ n e, r.attempt n = .error e →
    (r.afterAttempts n).SameContext (r.afterAttempts (n + 1))
  /-- Attempts that read a command or fail take one to four tokens. -/
  progress : ∀ n, r.attempt n ≠ .ok none → ∃ ts, 1 ≤ ts.length ∧ ts.length ≤ 4 ∧
    (r.afterAttempts n).Took ts (r.afterAttempts (n + 1))
  /-- The end is found behind as many attempts as there are tokens, if not before. -/
  finds_end : ∃ n ≤ size, r.attempt n = .ok none
  /-- Behind the end there is only the end. -/
  stays_at_end : ∀ n, r.attempt n = .ok none → ∀ k, n ≤ k → r.attempt k = .ok none
  /-- Behind a declaration, and up to the next one, the calls return to the addresses of the
  function in their order. -/
  addresses : ∀ n s f locals, r.attempt n = .ok (some s) → s.command = .function f locals →
    ∀ k, (∀ c ∈ r.commandsFrom (n + 1) k, c.declares? = none) →
      ∃ calls, (r.commandsFrom (n + 1) k).filterMap Command.returnAddress? =
        (List.range calls).map fun i => f ++ "$ret." ++ toString i

/-- Every reader of a text recovers from errors. -/
theorem recovers_ofString (source unit : String) :
    Recovers (Reader.ofString source unit)
      ((tokenize source).filter fun t => decide (t.kind ≠ .endOfText)).length := by
  have hgenuine : ∀ n, ((Reader.ofString source unit).afterAttempts n).Genuine :=
    fun n => (Reader.within_afterAttempts source unit n).genuine
  have hsize : (Reader.ofString source unit).pending =
      (tokenize source).filter fun t => decide (t.kind ≠ .endOfText) :=
    (filter_tokenize source).symm
  rw [← hsize]
  generalize Reader.ofString source unit = r at hgenuine
  have hattempt : ∀ n, Attempt (r.afterAttempts n) (r.attempt n) (r.afterAttempts (n + 1)) :=
    fun n => Reading.attempt_run_next (hgenuine n)
  have hend : ∀ n, r.attempt n = .ok none → (r.afterAttempts n).pending = [] :=
    fun n h => Reading.pending_of_run_next_none (hgenuine n) (Prod.ext h rfl)
  constructor
  case context =>
    intro n e he
    obtain ⟨ts, -, -, hcontext⟩ := Reading.mistake_of_run_next (hgenuine n) he
    exact hcontext
  case progress => exact fun n => (hattempt n).progress
  case finds_end =>
    refine ⟨r.pending.length, Nat.le_refl _, Reader.attempt_of_nil ?_⟩
    rcases Reader.length_pending_afterAttempts hgenuine r.pending.length with hnil | hle
    · exact hnil
    · exact List.eq_nil_of_length_eq_zero (by omega)
  case stays_at_end =>
    intro n h k hk
    exact Reader.attempt_of_nil (Reader.pending_afterAttempts_of_nil (hend n h) hk)
  case addresses =>
    intro n s f locals hread hfunction k hdeclares
    have h := hattempt n
    rw [hread] at h
    obtain _ | _ | ⟨spelled, pending, position, resolved, took⟩ := h
    rw [hfunction] at resolved
    have hscope := Instruction.scope_of_resolve_function resolved
    obtain ⟨calls, -, haddresses⟩ := Reader.exists_calls hgenuine hscope hdeclares
    exact ⟨calls, haddresses⟩

end HackVm
