import HackVm.Command.Instruction
import HackVm.Command.ReadError

set_option autoImplicit false

/-! # Reading commands from tokens

A reader takes the tokens of one unit from the left and builds its commands. There are no
separators: the first token of an instruction decides how many operands follow. Operands are
read first and the scope is asked last, so an operand error hides a scope error. After an error
reading can go on with the token behind the last one read.

`Reading.NonGrowing` says that a step never gives tokens back; it composes along `do` blocks,
and with it `length_next` shows that each command takes at least one token, which ends
`readAll`. -/

namespace HackVm

open Text

/-- A reader between two instructions. -/
structure Reader where
  unit : String
  /-- The tokens that are left, without the one for the end of the text. -/
  pending : List Token
  /-- Where the text ends. -/
  finish : Position
  /-- The token read last. -/
  current : Option Token
  /-- The first token of the instruction read last. -/
  head : Option Token
  scope : Option Scope
  /-- The functions declared so far, each once, in the order of their first declaration. -/
  declared : List String
  deriving DecidableEq, Repr

/-- A step of a reader, which changes it also when the step fails. -/
abbrev Reading := ExceptT ReadError (StateM Reader)

/-- Takes one step. -/
def Reader.run {α : Type} (r : Reader) (step : Reading α) : Except ReadError α × Reader :=
  (ExceptT.run step).run r

/-- A reader before the first token of a text. -/
def Reader.ofString (source unit : String) : Reader :=
  let read := (Cursor.ofString source).tokens
  { unit, pending := read.1.dropLast, finish := read.2.position, current := none, head := none,
    scope := none, declared := [] }

/-- The next token, and the reader behind it. -/
def Reader.take (r : Reader) : Token × Reader :=
  match r.pending with
  | [] =>
    let token : Token := ⟨.endOfText, "", r.finish⟩
    (token, { r with current := some token })
  | token :: pending => (token, { r with pending, current := some token })

/-- The functions declared so far, in the order of their names. -/
def Reader.declaredByName (r : Reader) : List String :=
  r.declared.mergeSort fun a b => decide (a ≤ b)

namespace Reading

variable {α β : Type}

/-! ## Single tokens -/

/-- Takes the next token; the end of the text can be taken again and again. -/
def advance : Reading Token :=
  modifyGet Reader.take

/-- Fails with a complaint about `token`, or about the token read last. -/
def complain (token : Option Token) (complaint : Complaint) : Reading α := do
  let r ← get
  throw (.located r.unit ((token <|> r.current).map (·.position)) complaint)

/-- Fails because the token read last is not what was expected. -/
def unexpected (what : String) (got : Token) : Reading α :=
  if got.kind = .endOfText then complain none (.ended what)
  else complain none (.expected what got.text)

/-- Takes a name. -/
def word (what : String) : Reading Token := do
  let token ← advance
  if token.kind = .identifier then return token
  else unexpected what token

/-- Takes a number that an instruction can carry. -/
def number (what : String) : Reading Nat := do
  let token ← advance
  if token.kind = .number then
    let count := token.text.length
    if maxDigits < count then throw (.tooManyDigits count)
    else
      let value := Nat.ofDigitChars 10 token.text.toList 0
      if Memory.maxIndex < value then complain none (.outOfRange what value)
      else return value
  else unexpected what token

/-- Takes a token with a given text. -/
def literal (text what : String) : Reading Token := do
  let token ← advance
  if token.text = text then return token
  else unexpected what token

/-- Takes the name of a segment. -/
def segment : Reading Segment := do
  let token ← word "memory segment"
  match Segment.ofKeyword? token.text with
  | some s => return s
  | none => complain none (.invalidSegment token.text)

/-- The function around the instruction that is being read. -/
def requireScope (what : String) : Reading Scope := do
  let r ← get
  match r.scope with
  | some s => return s
  | none => complain r.head (.outsideFunction what)

/-! ## Instructions -/

/-- Reads the operands that the first token of an instruction asks for. -/
def instruction (head : Token) : Reading Instruction :=
  match Operation.ofKeyword? head.text with
  | some op => return .arithmetic op
  | none =>
    match head.text with
    | "push" => do
      let s ← segment
      return .push s (← number "segment index")
    | "pop" => do
      let s ← segment
      return .pop s (← number "segment index")
    | "label" => do
      return .label (← word "label").text
    | "goto" => do
      return .goto (← word "label").text
    | "if" => do
      let _ ← literal "-" "if-goto"
      let _ ← literal "goto" "if-goto"
      return .ifGoto (← word "label").text
    | "function" => do
      let name ← word "function name"
      return .function name.text (← number "local variable count")
    | "call" => do
      let callee ← word "function name"
      return .call callee.text (← number "argument count")
    | "return" => return .ret
    | _ => complain (some head) (.invalidCommand head)

/-- Completes an instruction in the scope of the reader, and moves the scope behind it. -/
def settle (i : Instruction) : Reading Command := do
  let r ← get
  match i.resolve r.scope with
  | .error e => complain r.head (.outsideFunction e.subject)
  | .ok (command, scope) =>
    let declared := match i.declares? with
      | some name => if name ∈ r.declared then r.declared else r.declared ++ [name]
      | none => r.declared
    set { r with scope, declared }
    return command

/-- Reads the next command; nothing at the end of the text. -/
def next : Reading (Option Statement) := do
  let token ← advance
  match token.kind with
  | .endOfText => return none
  | .identifier =>
    modify ({ · with head := some token })
    let command ← settle (← instruction token)
    return some ⟨command, token.position⟩
  | _ => complain none (.invalidCommand token)

/-! ## Steps never give tokens back -/

/-- A step that leaves at most the tokens there were, whether it fails or not. -/
def NonGrowing (step : Reading α) : Prop :=
  ∀ r : Reader, (r.run step).2.pending.length ≤ r.pending.length

theorem NonGrowing.le {step : Reading α} (h : NonGrowing step) (r : Reader) :
    (r.run step).2.pending.length ≤ r.pending.length := h r

theorem run_bind (r : Reader) (step : Reading α) (f : α → Reading β) :
    r.run (step >>= f) =
      match r.run step with
      | (.ok a, r') => r'.run (f a)
      | (.error e, r') => (.error e, r') := by
  simp only [Reader.run, ExceptT.run_bind, StateT.run_bind]
  cases h : (ExceptT.run step).run r with
  | mk result r' => cases result <;> rfl

theorem run_get (r : Reader) : r.run (get : Reading Reader) = (.ok r, r) := rfl

theorem run_complain (r : Reader) (token : Option Token) (c : Complaint) :
    r.run (complain token c : Reading α) =
      (.error (.located r.unit ((token <|> r.current).map Token.position) c), r) := rfl

/-- Outside of any function there is no scope to give, which is said of the first token of the
instruction. -/
theorem run_requireScope (r : Reader) (what : String) :
    r.run (requireScope what) =
      match r.scope with
      | some s => (.ok s, r)
      | none => r.run (complain r.head (.outsideFunction what)) := by
  unfold requireScope
  rw [run_bind, run_get]
  dsimp only
  split <;> rfl

theorem NonGrowing.bind {step : Reading α} {f : α → Reading β} (hs : NonGrowing step)
    (hf : ∀ a, NonGrowing (f a)) : NonGrowing (step >>= f) := by
  intro r
  have first := hs r
  rw [run_bind]
  split
  · rename_i a r' h
    rw [h] at first
    exact Nat.le_trans (hf a r') first
  · rename_i e r' h
    rw [h] at first
    exact first

theorem NonGrowing.pure (a : α) : NonGrowing (pure a : Reading α) := fun _ => Nat.le_refl _

theorem NonGrowing.throw (e : ReadError) : NonGrowing (throw e : Reading α) :=
  fun _ => Nat.le_refl _

theorem nonGrowing_complain (token : Option Token) (c : Complaint) :
    NonGrowing (complain token c : Reading α) := fun _ => Nat.le_refl _

theorem nonGrowing_unexpected (what : String) (got : Token) :
    NonGrowing (unexpected what got : Reading α) := by
  unfold unexpected
  split <;> exact nonGrowing_complain _ _

theorem run_advance (r : Reader) : r.run advance = (.ok r.take.1, r.take.2) := rfl

/-- One token is taken, if there is one. -/
theorem pending_take (r : Reader) : r.take.2.pending = r.pending.tail := by
  unfold Reader.take
  split <;> simp_all

theorem nonGrowing_advance : NonGrowing advance := by
  intro r
  rw [run_advance, pending_take, List.length_tail]
  exact Nat.sub_le _ _

theorem nonGrowing_word (what : String) : NonGrowing (word what) := by
  refine nonGrowing_advance.bind fun token => ?_
  split
  · exact .pure _
  · exact nonGrowing_unexpected _ _

theorem nonGrowing_number (what : String) : NonGrowing (number what) := by
  refine nonGrowing_advance.bind fun token => ?_
  split
  · dsimp only
    split
    · exact .throw _
    split
    · exact nonGrowing_complain _ _
    · exact .pure _
  · exact nonGrowing_unexpected _ _

theorem nonGrowing_literal (text what : String) : NonGrowing (literal text what) := by
  refine nonGrowing_advance.bind fun token => ?_
  split
  · exact .pure _
  · exact nonGrowing_unexpected _ _

theorem nonGrowing_segment : NonGrowing segment := by
  refine (nonGrowing_word _).bind fun token => ?_
  split
  · exact .pure _
  · exact nonGrowing_complain _ _

theorem nonGrowing_instruction (head : Token) : NonGrowing (instruction head) := by
  unfold instruction
  split
  · exact .pure _
  split
  · exact nonGrowing_segment.bind fun _ => (nonGrowing_number _).bind fun _ => .pure _
  · exact nonGrowing_segment.bind fun _ => (nonGrowing_number _).bind fun _ => .pure _
  · exact (nonGrowing_word _).bind fun _ => .pure _
  · exact (nonGrowing_word _).bind fun _ => .pure _
  · exact (nonGrowing_literal _ _).bind fun _ => (nonGrowing_literal _ _).bind fun _ =>
      (nonGrowing_word _).bind fun _ => .pure _
  · exact (nonGrowing_word _).bind fun _ => (nonGrowing_number _).bind fun _ => .pure _
  · exact (nonGrowing_word _).bind fun _ => (nonGrowing_number _).bind fun _ => .pure _
  · exact .pure _
  · exact nonGrowing_complain _ _

theorem nonGrowing_settle (i : Instruction) : NonGrowing (settle i) := by
  intro r
  show (r.run (get >>= _)).2.pending.length ≤ _
  rw [run_bind]
  show (r.run _).2.pending.length ≤ _
  cases h : i.resolve r.scope <;> exact Nat.le_refl _

/-- A command takes at least one token. -/
theorem length_next {r : Reader} {s : Statement} (h : (r.run next).1 = .ok (some s)) :
    (r.run next).2.pending.length < r.pending.length := by
  unfold next at h ⊢
  rw [run_bind, run_advance] at h ⊢
  dsimp only at h ⊢
  cases hp : r.pending with
  | nil =>
    have : r.take.1.kind = .endOfText := by simp [Reader.take, hp]
    rw [this] at h
    cases h
  | cons token pending =>
    have shorter : r.take.2.pending = pending := by simp [pending_take, hp]
    rw [List.length_cons, ← shorter]
    refine Nat.lt_succ_of_le (NonGrowing.le ?_ _)
    split
    · exact .pure _
    · refine NonGrowing.bind (fun _ => Nat.le_refl _) fun _ => ?_
      exact (nonGrowing_instruction _).bind fun _ => (nonGrowing_settle _).bind fun _ => .pure _
    · exact nonGrowing_complain _ _

end Reading

/-! ## Whole units -/

/-- What a reader makes of all tokens that are left: the commands before the first error, that
error if there is one, and the reader behind them. -/
structure Readout where
  statements : List Statement
  failure : Option ReadError
  reader : Reader
  deriving DecidableEq, Repr

/-- Reads commands up to the end of the text or the first error. -/
def Reader.readAll (r : Reader) : Readout :=
  match _h : r.run Reading.next with
  | (.ok (some statement), r') =>
    let others := r'.readAll
    { others with statements := statement :: others.statements }
  | (.ok none, r') => ⟨[], none, r'⟩
  | (.error e, r') => ⟨[], some e, r'⟩
termination_by r.pending.length
decreasing_by
  have := Reading.length_next (congrArg Prod.fst _h)
  rwa [_h] at this

/-- The commands of a unit, or the first error in it. -/
def readUnit (source unit : String) : Except ReadError (List Statement) :=
  let readout := (Reader.ofString source unit).readAll
  match readout.failure with
  | some e => .error e
  | none => .ok readout.statements

end HackVm
