import HackVm.Proofs.Command.Recognition

set_option autoImplicit false

/-! # Reading without places

Tokens carry their places along with their texts, and so do the readers, statements and errors
made of them. `unplaced` forgets the places: it puts everything at the start of the text. No step of
a reader looks at a place, so a step does the same once places are forgotten, as far as that can
still be told (`Reading.Blind`). Blind steps in a row are blind (`Blind.bind`), and by induction on
the commands so is reading a whole unit (`Reader.readAll_unplaced`). -/

namespace HackVm

open Text

/-! ## Places forgotten -/

def Token.unplaced (t : Token) : Token := { t with position := .start }

def Statement.unplaced (s : Statement) : Statement := { s with position := .start }

def Complaint.unplaced : Complaint → Complaint
  | .invalidCommand token => .invalidCommand token.unplaced
  | c => c

def ReadError.unplaced : ReadError → ReadError
  | .located unit position c => .located unit (position.map fun _ => .start) c.unplaced
  | .tooManyDigits count => .tooManyDigits count

def Reader.unplaced (r : Reader) : Reader :=
  { r with
    pending := r.pending.map Token.unplaced
    finish := .start
    current := r.current.map Token.unplaced
    head := r.head.map Token.unplaced }

def Readout.unplaced (readout : Readout) : Readout :=
  { statements := readout.statements.map Statement.unplaced
    failure := readout.failure.map ReadError.unplaced
    reader := readout.reader.unplaced }

/-- A token without its place is its kind and its text. -/
theorem Token.map_unplaced (ts : List Token) :
    ts.map Token.unplaced = (ts.map Token.lexeme).map fun l => ⟨l.1, l.2, .start⟩ := by
  rw [List.map_map]
  rfl

/-- What is wrong with a token does not depend on where it stands. -/
theorem Complaint.message_unplaced (c : Complaint) : c.unplaced.message = c.message := by
  cases c <;> rfl

theorem Reader.take_unplaced (r : Reader) :
    r.unplaced.take = (r.take.1.unplaced, r.take.2.unplaced) := by
  unfold Reader.take
  cases hpending : r.pending with
  | nil => simp [Reader.unplaced, Token.unplaced, hpending]
  | cons t pending => simp [Reader.unplaced, hpending]

/-! ## Steps that do not look at places -/

namespace Reading

variable {α β : Type} {forget : α → α} {forget' : β → β}

/-- A reader without places does with `unplacedStep` what one with places does with `step`, but
for the places in the outcome. The two are the same step, or the same function of a token. -/
def Blind (forget : α → α) (step unplacedStep : Reading α) : Prop :=
  ∀ r : Reader, r.unplaced.run unplacedStep =
    (((r.run step).1.mapError ReadError.unplaced).map forget, (r.run step).2.unplaced)

theorem Blind.bind {step step' : Reading α} {f f' : α → Reading β} (hs : Blind forget step step')
    (hf : ∀ a, Blind forget' (f a) (f' (forget a))) :
    Blind forget' (step >>= f) (step' >>= f') := by
  intro r
  rw [run_bind, run_bind, hs r]
  cases r.run step with
  | mk result r' =>
    cases result with
    | ok a => exact hf a r'
    | error e => rfl

theorem Blind.pure (a : α) : Blind forget (Pure.pure a) (Pure.pure (forget a)) := fun _ => rfl

theorem Blind.tooManyDigits (count : Nat) :
    Blind forget (throw (.tooManyDigits count)) (throw (.tooManyDigits count)) := fun _ => rfl

theorem blind_advance : Blind Token.unplaced advance advance := by
  intro r
  rw [run_advance, run_advance, Reader.take_unplaced]
  rfl

theorem blind_complain (token : Option Token) (c : Complaint) :
    Blind forget (complain token c) (complain (token.map Token.unplaced) c.unplaced) := by
  intro r
  have hposition : ((token.map Token.unplaced <|> r.current.map Token.unplaced).map
      Token.position) = ((token <|> r.current).map Token.position).map fun _ => Position.start := by
    cases token <;> cases r.current <;> rfl
  rw [run_complain, run_complain]
  exact congrArg (fun p => (Except.error (ReadError.located r.unit p c.unplaced), r.unplaced))
    hposition

theorem blind_unexpected (what : String) (got : Token) :
    Blind forget (unexpected what got) (unexpected what got.unplaced) := by
  have hkind : got.unplaced.kind = got.kind := rfl
  unfold unexpected
  rw [hkind]
  by_cases hend : got.kind = .endOfText
  · rw [if_pos hend, if_pos hend]
    exact blind_complain none (.ended what)
  · rw [if_neg hend, if_neg hend]
    exact blind_complain none (.expected what got.text)

theorem blind_word (what : String) : Blind Token.unplaced (word what) (word what) := by
  refine blind_advance.bind fun t => ?_
  dsimp only [Token.unplaced]
  split
  · exact .pure t
  · exact blind_unexpected what t

theorem blind_literal (text what : String) :
    Blind Token.unplaced (literal text what) (literal text what) := by
  refine blind_advance.bind fun t => ?_
  dsimp only [Token.unplaced]
  split
  · exact .pure t
  · exact blind_unexpected what t

theorem blind_number (what : String) : Blind id (number what) (number what) := by
  refine blind_advance.bind fun t => ?_
  dsimp only [Token.unplaced]
  split
  · split
    · exact .tooManyDigits _
    split
    · exact blind_complain none _
    · exact .pure _
  · exact blind_unexpected what t

theorem blind_segment : Blind id segment segment := by
  refine (blind_word _).bind fun t => ?_
  dsimp only [Token.unplaced]
  split
  · exact .pure _
  · exact blind_complain none _

theorem blind_instruction (head : Token) :
    Blind id (instruction head) (instruction head.unplaced) := by
  unfold instruction
  dsimp only [Token.unplaced]
  split
  · exact .pure _
  split
  · exact blind_segment.bind fun _ => (blind_number _).bind fun _ => .pure _
  · exact blind_segment.bind fun _ => (blind_number _).bind fun _ => .pure _
  · exact (blind_word _).bind fun _ => .pure _
  · exact (blind_word _).bind fun _ => .pure _
  · exact (blind_literal _ _).bind fun _ => (blind_literal _ _).bind fun _ =>
      (blind_word _).bind fun _ => .pure _
  · exact (blind_word _).bind fun _ => (blind_number _).bind fun _ => .pure _
  · exact (blind_word _).bind fun _ => (blind_number _).bind fun _ => .pure _
  · exact .pure _
  · exact blind_complain (some head) _

/-- The scope of a reader knows no places. -/
theorem blind_settle (i : Instruction) : Blind id (settle i) (settle i) := by
  intro r
  have hscope : r.unplaced.scope = r.scope := rfl
  rw [run_settle, run_settle, hscope]
  cases i.resolve r.scope with
  | error e => exact blind_complain r.head (.outsideFunction e.subject) r
  | ok result => rfl

theorem blind_next : Blind (Option.map Statement.unplaced) next next := by
  refine blind_advance.bind fun t => ?_
  dsimp only [Token.unplaced]
  split
  · exact .pure none
  · have hhead : Blind id (modify ({ · with head := some t }))
        (modify ({ · with head := some t.unplaced })) := fun _ => rfl
    exact hhead.bind fun _ => (blind_instruction t).bind fun i => (blind_settle i).bind fun _ =>
      .pure _
  · exact blind_complain none _

end Reading

/-! ## Whole units -/

/-- Reading a unit to the end does not look at places. The induction is on the commands. -/
theorem Reader.readAll_unplaced (r : Reader) : r.unplaced.readAll = r.readAll.unplaced := by
  fun_induction Reader.readAll r with
  | case1 r s r' hnext others ih =>
    have hblind := Reading.blind_next r
    rw [hnext] at hblind
    rw [Reader.readAll_of_run_next hblind, ih]
    rfl
  | case2 r r' hnext =>
    have hblind := Reading.blind_next r
    rw [hnext] at hblind
    rw [Reader.readAll_of_run_next_none hblind]
    rfl
  | case3 r e r' hnext =>
    have hblind := Reading.blind_next r
    rw [hnext] at hblind
    rw [Reader.readAll_of_run_next_error hblind]
    rfl

/-- Texts with the same row of kinds and texts of tokens are the same to a reader without
places. -/
theorem Reader.unplaced_ofString_congr {source source' : String}
    (h : (tokenize source).map Token.lexeme = (tokenize source').map Token.lexeme)
    (unit : String) : (ofString source unit).unplaced = (ofString source' unit).unplaced := by
  have hreader : ∀ s : String, (ofString s unit).unplaced =
      ⟨unit, (tokenize s).dropLast.map Token.unplaced, .start, none, none, none, []⟩ :=
    fun _ => rfl
  rw [hreader, hreader, List.map_dropLast, List.map_dropLast, Token.map_unplaced,
    Token.map_unplaced, h]

/-- From such texts the same is read, but for the places. -/
theorem Reader.readAll_congr {source source' : String}
    (h : (tokenize source).map Token.lexeme = (tokenize source').map Token.lexeme)
    (unit : String) :
    (ofString source unit).readAll.unplaced = (ofString source' unit).readAll.unplaced := by
  rw [← readAll_unplaced, ← readAll_unplaced, unplaced_ofString_congr h]

end HackVm
