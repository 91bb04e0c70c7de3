import HackVm.Command.Reader
import HackVm.Proofs.Token.Shape

set_option autoImplicit false

/-! # The grammar of programs

A program is a row of instructions, each written with a keyword and up to three operands and with
nothing between them. `Spelled` says how an instruction is written, `complete` which command it
becomes behind other instructions. Both are given without a reader: the function around an
instruction is the last one that the instructions before it declare, and call sites are counted
from there. -/

namespace HackVm

/-! ## Spelling -/

def Token.lexeme (t : Token) : TokenKind × String := (t.kind, t.text)

/-- A numeral that an instruction can carry, and its value. -/
structure IsNumeral (numeral : String) (n : Nat) : Prop where
  length : numeral.length ≤ maxDigits
  value : Nat.ofDigitChars 10 numeral.toList 0 = n
  bound : n ≤ Memory.maxIndex

namespace Instruction

/-- The first word of an instruction. -/
def keyword : Instruction → String
  | .arithmetic op => op.keyword
  | .push _ _ => "push"
  | .pop _ _ => "pop"
  | .label _ => "label"
  | .goto _ => "goto"
  | .ifGoto _ => "if"
  | .function _ _ => "function"
  | .call _ _ => "call"
  | .ret => "return"

/-- The kinds and texts of the tokens behind the first word. -/
def SpelledOperands : Instruction → List (TokenKind × String) → Prop
  | .arithmetic _, ls => ls = []
  | .push segment n, ls =>
    ∃ numeral, IsNumeral numeral n ∧ ls = [(.identifier, segment.keyword), (.number, numeral)]
  | .pop segment n, ls =>
    ∃ numeral, IsNumeral numeral n ∧ ls = [(.identifier, segment.keyword), (.number, numeral)]
  | .label name, ls => ls = [(.identifier, name)]
  | .goto name, ls => ls = [(.identifier, name)]
  | .ifGoto name, ls => ls = [(.symbol, "-"), (.identifier, "goto"), (.identifier, name)]
  | .function name n, ls =>
    ∃ numeral, IsNumeral numeral n ∧ ls = [(.identifier, name), (.number, numeral)]
  | .call callee n, ls =>
    ∃ numeral, IsNumeral numeral n ∧ ls = [(.identifier, callee), (.number, numeral)]
  | .ret, ls => ls = []

/-- How an instruction is written. -/
def Spelled (i : Instruction) (ls : List (TokenKind × String)) : Prop :=
  ∃ operands, ls = (.identifier, i.keyword) :: operands ∧ i.SpelledOperands operands

end Instruction

/-- An instruction together with the tokens that it is written with. -/
structure Phrase where
  instruction : Instruction
  tokens : List Token

def Phrase.Spelled (p : Phrase) : Prop := p.instruction.Spelled (p.tokens.map Token.lexeme)

namespace Instruction

/-- The names in an instruction can be names in a program. -/
def Named : Instruction → Prop
  | .label name | .goto name | .ifGoto name | .function name _ | .call name _ => IsName name
  | _ => True

end Instruction

/-- A token that stands for a name in a spelling has one for its text. -/
theorem isName_of_mem_lexemes {ts : List Token} {name : String}
    (hts : ∀ t ∈ ts, t.WellFormed) (h : (.identifier, name) ∈ ts.map Token.lexeme) :
    IsName name := by
  obtain ⟨t, ht, hlexeme⟩ := List.mem_map.mp h
  obtain ⟨hkind, rfl⟩ := Prod.mk.inj hlexeme
  have hwell := hts t ht
  unfold Token.WellFormed at hwell
  rwa [hkind] at hwell

theorem Phrase.Spelled.named {p : Phrase} (h : p.Spelled) (hp : ∀ t ∈ p.tokens, t.WellFormed) :
    p.instruction.Named := by
  obtain ⟨i, ts⟩ := p
  obtain ⟨operands, hlexemes, hoperands⟩ := h
  have hname : ∀ name, (.identifier, name) ∈ operands → IsName name := by
    intro name hmem
    refine isName_of_mem_lexemes hp ?_
    rw [hlexemes]
    exact List.mem_cons_of_mem _ hmem
  cases i with
  | label name | goto name | ifGoto name =>
    rw [hoperands] at hname
    exact hname name (by simp)
  | function name n | call name n =>
    obtain ⟨numeral, -, rfl⟩ := hoperands
    exact hname name List.mem_cons_self
  | _ => trivial

/-! ## Completing instructions -/

namespace Instruction

/-- Labels, jumps, calls and returns belong to a function. -/
def needsFunction : Instruction → Bool
  | .label _ | .goto _ | .ifGoto _ | .call _ _ | .ret => true
  | _ => false

def isCall : Instruction → Bool
  | .call _ _ => true
  | _ => false

/-- The function that was declared last. -/
def enclosing? (before : List Instruction) : Option String :=
  (before.filterMap declares?).getLast?

/-- The number of calls since the last declaration. -/
def callsSince (before : List Instruction) : Nat :=
  (before.reverse.takeWhile fun i => i.declares?.isNone).countP isCall

/-- The command that an instruction is behind other ones. -/
def complete (before : List Instruction) : Instruction → Option Command
  | .arithmetic op => some (.arithmetic op)
  | .push segment n => some (.push segment n)
  | .pop segment n => some (.pop segment n)
  | .label name => (enclosing? before).map fun f => .label (f ++ "$" ++ name)
  | .goto name => (enclosing? before).map fun f => .goto (f ++ "$" ++ name)
  | .ifGoto name => (enclosing? before).map fun f => .ifGoto (f ++ "$" ++ name)
  | .function name n => some (.function name n)
  | .call callee n => (enclosing? before).map fun f =>
      .call callee n (f ++ "$ret." ++ toString (callsSince before))
  | .ret => (enclosing? before).map fun _ => .ret

end Instruction

/-- The function that a command declares. -/
def Command.declares? : Command → Option String
  | .function name _ => some name
  | _ => none

/-- The functions that commands declare. -/
def declarationsOf (cs : List Command) : List String := cs.filterMap Command.declares?

theorem declarationsOf_cons (c : Command) (cs : List Command) :
    declarationsOf (c :: cs) = c.declares?.toList ++ declarationsOf cs := by
  cases c <;> rfl

theorem declarationsOf_append (cs ds : List Command) :
    declarationsOf (cs ++ ds) = declarationsOf cs ++ declarationsOf ds :=
  List.filterMap_append

/-- The statements that phrases are: one for each, with the place of its first token. -/
def Elaborates (phrases : List Phrase) (statements : List Statement) : Prop :=
  statements.length = phrases.length ∧
    ∀ before p after, phrases = before ++ p :: after →
      ∃ s, statements[before.length]? = some s ∧
        p.instruction.complete (before.map Phrase.instruction) = some s.command ∧
        p.tokens.head?.map Token.position = some s.position

/-- The tokens of a text, without the one for its end, are those of a row of instructions, and
what belongs to a function stands behind the declaration of one. -/
structure IsProgram (source : String) (phrases : List Phrase) : Prop where
  tokens : (tokenize source).filter (fun t => decide (t.kind ≠ .endOfText)) =
    phrases.flatMap Phrase.tokens
  spelled : ∀ p ∈ phrases, p.Spelled
  declared : ∀ before p after, phrases = before ++ p :: after →
    p.instruction.needsFunction = true →
      ∃ q ∈ before, ∃ name n, q.instruction = .function name n

/-! ## Scopes -/

namespace Instruction

/-- The scope behind a row of instructions. -/
def scopeAfter (before : List Instruction) : Option Scope :=
  (enclosing? before).map fun f => ⟨f, callsSince before⟩

theorem enclosing?_concat (before : List Instruction) (i : Instruction) :
    enclosing? (before ++ [i]) = i.declares?.or (enclosing? before) := by
  rw [enclosing?, List.filterMap_append, List.getLast?_append]
  cases i <;> rfl

theorem callsSince_concat (before : List Instruction) (i : Instruction) :
    callsSince (before ++ [i]) =
      if i.declares?.isNone then callsSince before + (if i.isCall then 1 else 0) else 0 := by
  rw [callsSince, List.reverse_append, List.reverse_singleton, List.singleton_append,
    List.takeWhile_cons]
  split
  · rw [List.countP_cons]
    rfl
  · rfl

theorem scopeAfter_function (before : List Instruction) (name : String) (n : Nat) :
    scopeAfter (before ++ [.function name n]) = some (.enter name) := by
  rw [scopeAfter, enclosing?_concat, callsSince_concat]
  rfl

theorem scopeAfter_call (before : List Instruction) (callee : String) (n : Nat) :
    scopeAfter (before ++ [.call callee n]) = (scopeAfter before).map Scope.called := by
  rw [scopeAfter, scopeAfter, enclosing?_concat, callsSince_concat, Option.map_map]
  rfl

/-- What neither declares a function nor calls one leaves the scope alone. -/
theorem scopeAfter_concat (before : List Instruction) {i : Instruction}
    (hdeclares : i.declares? = none) (hcall : i.isCall = false) :
    scopeAfter (before ++ [i]) = scopeAfter before := by
  rw [scopeAfter, scopeAfter, enclosing?_concat, callsSince_concat, hdeclares, hcall]
  rfl

theorem within_eq_ok_iff {scope scope' : Option Scope} {subject : ScopeError}
    {f : Scope → Command × Scope} {c : Command} :
    resolve.within scope subject f = .ok (c, scope') ↔
      (scope.map fun s => (f s).1) = some c ∧ scope' = scope.map fun s => (f s).2 := by
  cases scope with
  | none => simp [resolve.within]
  | some s => simp [resolve.within, eq_comm]

/-- Resolving in the scope behind a row of instructions is completing behind them. -/
theorem resolve_scopeAfter (before : List Instruction) (i : Instruction) {c : Command}
    {scope : Option Scope} :
    i.resolve (scopeAfter before) = .ok (c, scope) ↔
      i.complete before = some c ∧ scope = scopeAfter (before ++ [i]) := by
  have hkeep : (scopeAfter before).map (fun s => s) = scopeAfter before := Option.map_id'
  cases i with
  | arithmetic op =>
    rw [scopeAfter_concat before rfl rfl]
    simp [resolve, complete, eq_comm]
  | push segment n =>
    rw [scopeAfter_concat before rfl rfl]
    simp [resolve, complete, eq_comm]
  | pop segment n =>
    rw [scopeAfter_concat before rfl rfl]
    simp [resolve, complete, eq_comm]
  | function name n =>
    rw [scopeAfter_function]
    simp [resolve, complete, eq_comm]
  | label name =>
    rw [scopeAfter_concat before rfl rfl, resolve, within_eq_ok_iff, hkeep, scopeAfter,
      Option.map_map]
    rfl
  | goto name =>
    rw [scopeAfter_concat before rfl rfl, resolve, within_eq_ok_iff, hkeep, scopeAfter,
      Option.map_map]
    rfl
  | ifGoto name =>
    rw [scopeAfter_concat before rfl rfl, resolve, within_eq_ok_iff, hkeep, scopeAfter,
      Option.map_map]
    rfl
  | call callee n =>
    rw [scopeAfter_call, resolve, within_eq_ok_iff, scopeAfter, Option.map_map]
    rfl
  | ret =>
    rw [scopeAfter_concat before rfl rfl, resolve, within_eq_ok_iff, hkeep, scopeAfter,
      Option.map_map]
    rfl

/-- A function is known behind its declaration. -/
theorem enclosing?_ne_none_iff (before : List Instruction) :
    enclosing? before ≠ none ↔ ∃ i ∈ before, ∃ name n, i = .function name n := by
  rw [Ne, enclosing?, List.getLast?_eq_none_iff, List.filterMap_eq_nil_iff]
  simp only [not_forall, exists_prop]
  refine exists_congr fun i => and_congr_right fun _ => ?_
  cases i <;> simp [declares?]

/-- An instruction becomes a command where its function is known, if it needs one. -/
theorem exists_complete_iff (before : List Instruction) (i : Instruction) :
    (∃ c, i.complete before = some c) ↔
      (i.needsFunction = true → enclosing? before ≠ none) := by
  cases henclosing : enclosing? before with
  | none => cases i <;> simp [complete, needsFunction, henclosing]
  | some f => cases i <;> simp [complete, henclosing]

end Instruction

/-! ## Elaborating one by one -/

/-- Statements are phrases resolved one behind the other, from a scope on. -/
inductive Resolves : Option Scope → List Phrase → List Statement → Prop
  | nil (scope : Option Scope) : Resolves scope [] []
  | cons {scope scope' : Option Scope} {p : Phrase} {ps : List Phrase} {s : Statement}
      {ss : List Statement} (resolved : p.instruction.resolve scope = .ok (s.command, scope'))
      (position : p.tokens.head?.map Token.position = some s.position)
      (others : Resolves scope' ps ss) : Resolves scope (p :: ps) (s :: ss)

/-- Phrases resolved behind other instructions are complete behind them. The induction carries
the instructions that were resolved already. -/
theorem Resolves.complete (before : List Instruction) {phrases : List Phrase}
    {statements : List Statement}
    (h : Resolves (Instruction.scopeAfter before) phrases statements) :
    statements.length = phrases.length ∧ ∀ pre p post, phrases = pre ++ p :: post →
      ∃ s, statements[pre.length]? = some s ∧
        p.instruction.complete (before ++ pre.map Phrase.instruction) = some s.command ∧
        p.tokens.head?.map Token.position = some s.position := by
  induction phrases generalizing before statements with
  | nil =>
    cases h
    refine ⟨rfl, ?_⟩
    intro pre p post hsplit
    simp at hsplit
  | cons q ps ih =>
    obtain _ | ⟨resolved, position, others⟩ := h
    obtain ⟨hcomplete, rfl⟩ := (Instruction.resolve_scopeAfter _ _).mp resolved
    obtain ⟨hlength, hothers⟩ := ih _ others
    refine ⟨by simp [hlength], ?_⟩
    intro pre p post hsplit
    cases pre with
    | nil =>
      obtain ⟨rfl, rfl⟩ := List.cons.inj hsplit
      refine ⟨_, rfl, ?_, position⟩
      rw [List.map_nil, List.append_nil]
      exact hcomplete
    | cons q' pre =>
      obtain ⟨rfl, hrest⟩ := List.cons.inj hsplit
      obtain ⟨s, hs, hc, hp⟩ := hothers pre p post hrest
      refine ⟨s, hs, ?_, hp⟩
      rw [List.map_cons, ← hc, List.append_assoc, List.singleton_append]

theorem exists_resolves (before : List Instruction) {phrases : List Phrase}
    (htokens : ∀ p ∈ phrases, p.tokens ≠ [])
    (hdeclared : ∀ pre p post, phrases = pre ++ p :: post → p.instruction.needsFunction = true →
      Instruction.enclosing? (before ++ pre.map Phrase.instruction) ≠ none) :
    ∃ statements, Resolves (Instruction.scopeAfter before) phrases statements := by
  induction phrases generalizing before with
  | nil => exact ⟨[], .nil _⟩
  | cons p ps ih =>
    have hfirst : p.instruction.needsFunction = true → Instruction.enclosing? before ≠ none := by
      have h := hdeclared [] p ps rfl
      rwa [List.map_nil, List.append_nil] at h
    obtain ⟨c, hc⟩ := (Instruction.exists_complete_iff _ _).mpr hfirst
    obtain ⟨t, ts, ht⟩ := List.exists_cons_of_ne_nil (htokens p List.mem_cons_self)
    obtain ⟨ss, hss⟩ := ih (before ++ [p.instruction])
      (fun q hq => htokens q (List.mem_cons_of_mem _ hq)) (by
        intro pre q post hsplit hneeds
        have h := hdeclared (p :: pre) q post (by rw [hsplit, List.cons_append]) hneeds
        rwa [List.map_cons, ← List.singleton_append, ← List.append_assoc] at h)
    refine ⟨⟨c, t.position⟩ :: ss, .cons ((Instruction.resolve_scopeAfter _ _).mpr ⟨hc, rfl⟩)
      ?_ hss⟩
    rw [ht]
    rfl

end HackVm
