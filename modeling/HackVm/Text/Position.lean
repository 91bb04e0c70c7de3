set_option autoImplicit false

/-! # Positions in a text

A place in a text is its line and column, both counted from zero in code points. Only a line
feed starts a line; every other character, a carriage return included, takes one column.
The main statement is `Position.after_append`: a position can be carried piece by piece. -/

namespace HackVm.Text

structure Position where
  line : Nat
  column : Nat
  deriving DecidableEq, Repr

namespace Position

/-- The place of the first character. -/
def start : Position := ⟨0, 0⟩

/-- The place behind the character `c` that stands at `p`. -/
def next (p : Position) (c : Char) : Position :=
  if c = '\n' then ⟨p.line + 1, 0⟩ else ⟨p.line, p.column + 1⟩

/-- The place behind the text `cs` that begins at `p`. -/
def after (p : Position) (cs : List Char) : Position :=
  cs.foldl next p

/-- Written `line:column`. -/
def text (p : Position) : String :=
  toString p.line ++ ":" ++ toString p.column

@[simp] theorem after_nil (p : Position) : p.after [] = p := rfl

@[simp] theorem after_cons (p : Position) (c : Char) (cs : List Char) :
    p.after (c :: cs) = (p.next c).after cs := rfl

theorem after_append (p : Position) (cs ds : List Char) :
    p.after (cs ++ ds) = (p.after cs).after ds :=
  List.foldl_append

/-- The line moves by the number of line feeds. -/
theorem line_after (p : Position) (cs : List Char) :
    (p.after cs).line = p.line + cs.count '\n' := by
  induction cs generalizing p with
  | nil => simp
  | cons c cs ih =>
    by_cases h : c = '\n'
    · simp [ih, next, h]
      omega
    · simp [ih, next, h]

/-- Within a line the column moves by the number of characters. -/
theorem after_of_not_mem (p : Position) {cs : List Char} (h : '\n' ∉ cs) :
    p.after cs = ⟨p.line, p.column + cs.length⟩ := by
  induction cs generalizing p with
  | nil => rfl
  | cons c cs ih =>
    simp only [List.mem_cons, not_or] at h
    rw [after_cons, ih _ h.2, next, if_neg (Ne.symm h.1)]
    simp [Nat.add_comm, Nat.add_left_comm]

end Position

end HackVm.Text
