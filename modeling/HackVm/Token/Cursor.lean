import HackVm.Text.Class
import HackVm.Text.Position
import HackVm.Text.Quoted

set_option autoImplicit false

/-! # Reading tokens from a text

A program text is read as a row of tokens: names, numbers and single symbols, closed by one
token for the end of the text. A token keeps its own text and the place of its first character.

A cursor stands between two characters of a text. All its movements are `skip`: it passes a
number of characters and carries its place along, so `source_skip` and `position_skip` hold of
each of them. The longest run of a class (`readWhile`) gives a number or a name; `skipGap`
passes the blanks and comments before a token; `nextToken` puts them together.

A comment begins with `//` and lasts until the next control character, which is most often the
end of the line. Two things keep reading total: a comment has at least two characters
(`length_skipComment`), and a token other than the last has at least one
(`length_nextToken`). -/

namespace HackVm

open Text

/-! ## Tokens -/

inductive TokenKind
  | identifier
  | number
  | symbol
  | endOfText
  deriving DecidableEq, Repr

/-- The name under which a kind is shown. -/
def TokenKind.name : TokenKind → String
  | .identifier => "IDENTIFIER"
  | .number => "NUMBER"
  | .symbol => "SYMBOL"
  | .endOfText => "EOF"

structure Token where
  kind : TokenKind
  /-- The characters of the token; none at the end of the text. -/
  text : String
  position : Position
  deriving DecidableEq, Repr

/-- A token is shown by kind, quoted text and place. -/
def Token.describe (t : Token) : String :=
  "Token(" ++ t.kind.name ++ ", " ++ quoted t.text ++ ", " ++ t.position.text ++ ")"

/-! ## Cursors -/

/-- A place in a text, with the characters before it (the nearest first) and those behind. -/
structure Cursor where
  past : List Char
  rest : List Char
  position : Position
  deriving DecidableEq, Repr

namespace Cursor

/-- The cursor before the first character. -/
def ofString (source : String) : Cursor :=
  ⟨[], source.toList, .start⟩

/-- The whole text. -/
def source (c : Cursor) : List Char :=
  c.past.reverse ++ c.rest

/-- The number of characters passed. -/
def offset (c : Cursor) : Nat :=
  c.past.length

/-! ## Looking -/

/-- Why there is no looking back that far. -/
inductive LookError
  /-- The place lies before the first character, counted back from the end. -/
  | beforeStart
  /-- The place has a number below those of signed words of 64 bits. -/
  | belowWords
  deriving DecidableEq, Repr

def LookError.message : LookError → String
  | .beforeStart => "string index out of range"
  | .belowWords => "cannot fit 'int' into an index-sized integer"

/-- The number of negative signed words of 64 bits. -/
def negativeWords : Nat := 0x8000000000000000

/-- The character `distance` places on from the cursor, or nothing at or behind the end. Looking
back beyond the start goes on from the end of the text, at most to its first character; places
are numbered by signed words of 64 bits. -/
def look (c : Cursor) (distance : Int) : Except LookError (Option Char) :=
  match (c.offset : Int) + distance with
  | .ofNat index => .ok c.source[index]?
  | .negSucc back =>
    if negativeWords ≤ back then .error .belowWords
    else match c.source.reverse[back]? with
      | some ch => .ok (some ch)
      | none => .error .beforeStart

/-- Whether a comment begins at the cursor. -/
def startsComment (c : Cursor) : Bool :=
  match c.rest with
  | '/' :: '/' :: _ => true
  | _ => false

/-! ## Moving -/

/-- Passes `n` characters, or all that are left. -/
def skip (c : Cursor) (n : Nat) : Cursor :=
  { past := (c.rest.take n).reverse ++ c.past
    rest := c.rest.drop n
    position := c.position.after (c.rest.take n) }

/-- Passes one character and gives it, unless the text is at its end. -/
def advance (c : Cursor) : Option Char × Cursor :=
  (c.rest.head?, c.skip 1)

/-- Passes the longest run of characters of a class. -/
def skipWhile (p : Char → Bool) (c : Cursor) : Cursor :=
  c.skip (c.rest.takeWhile p).length

/-- Passes the longest run of characters of a class and gives it. -/
def readWhile (p : Char → Bool) (c : Cursor) : String × Cursor :=
  (String.ofList (c.rest.takeWhile p), c.skipWhile p)

def skipBlanks (c : Cursor) : Cursor :=
  c.skipWhile isBlank

/-- Passes a comment, if one begins here, up to the control character that ends it. -/
def skipComment (c : Cursor) : Cursor :=
  if c.startsComment then c.skipWhile fun ch => !isControl ch else c

def readNumber (c : Cursor) : String × Cursor :=
  c.readWhile Char.isDigit

def readName (c : Cursor) : String × Cursor :=
  c.readWhile isNamePart

/-! ## What movements keep and change -/

@[simp] theorem rest_skip (c : Cursor) (n : Nat) : (c.skip n).rest = c.rest.drop n := rfl

@[simp] theorem position_skip (c : Cursor) (n : Nat) :
    (c.skip n).position = c.position.after (c.rest.take n) := rfl

@[simp] theorem source_skip (c : Cursor) (n : Nat) : (c.skip n).source = c.source := by
  simp [source, skip]

@[simp] theorem source_skipWhile (p : Char → Bool) (c : Cursor) :
    (c.skipWhile p).source = c.source := source_skip _ _

@[simp] theorem rest_skipWhile (p : Char → Bool) (c : Cursor) :
    (c.skipWhile p).rest = c.rest.dropWhile p := by
  rw [skipWhile, rest_skip]
  conv => lhs; arg 2; rw [← List.takeWhile_append_dropWhile (p := p) (l := c.rest)]
  exact List.drop_left

theorem length_skipWhile (p : Char → Bool) (c : Cursor) :
    (c.skipWhile p).rest.length ≤ c.rest.length := by
  rw [rest_skipWhile]
  exact (List.dropWhile_sublist p).length_le

/-- A run that begins with a character of the class is not empty. -/
theorem length_skipWhile_of_head {p : Char → Bool} {c : Cursor} {ch : Char} {rest : List Char}
    (h : c.rest = ch :: rest) (hp : p ch = true) : (c.skipWhile p).rest.length < c.rest.length := by
  rw [rest_skipWhile, h, List.dropWhile_cons_of_pos hp]
  exact Nat.lt_succ_of_le (List.dropWhile_sublist p).length_le

theorem startsComment_iff (c : Cursor) :
    c.startsComment = true ↔ ∃ rest, c.rest = '/' :: '/' :: rest := by
  unfold startsComment
  split <;> simp_all

/-- A comment is not empty. -/
theorem length_skipComment {c : Cursor} (h : c.startsComment = true) :
    c.skipComment.rest.length < c.rest.length := by
  obtain ⟨rest, hrest⟩ := c.startsComment_iff.mp h
  rw [skipComment, if_pos h]
  exact length_skipWhile_of_head hrest (by decide)

/-! ## Reading -/

/-- Passes all blanks and comments before the next token. -/
def skipGap (c : Cursor) : Cursor :=
  let c' := c.skipBlanks
  if _h : c'.startsComment = true then c'.skipComment.skipGap else c'
termination_by c.rest.length
decreasing_by exact Nat.lt_of_lt_of_le (length_skipComment _h) (length_skipWhile _ _)

/-- Reads the next token. A digit begins a number and a letter begins a name, each as long as
possible; any other character is a symbol by itself. At the end of the text each call gives the
last token again. -/
def nextToken (c : Cursor) : Token × Cursor :=
  let c := c.skipGap
  let token (kind : TokenKind) (text : String) : Token := ⟨kind, text, c.position⟩
  match c.rest with
  | [] => (token .endOfText "", c)
  | ch :: _ =>
    if ch.isDigit then (token .number c.readNumber.1, c.readNumber.2)
    else if ch.isAlpha then (token .identifier c.readName.1, c.readName.2)
    else (token .symbol ch.toString, c.skip 1)

theorem length_skipGap (c : Cursor) : c.skipGap.rest.length ≤ c.rest.length := by
  fun_induction skipGap c with
  | case1 c c' h ih =>
    have comment := Nat.le_of_lt (length_skipComment h)
    exact Nat.le_trans ih (Nat.le_trans comment (length_skipWhile _ _))
  | case2 c c' h => exact length_skipWhile _ _

/-- A token other than the last has at least one character. -/
theorem length_nextToken {c : Cursor} (h : c.nextToken.1.kind ≠ .endOfText) :
    c.nextToken.2.rest.length < c.rest.length := by
  refine Nat.lt_of_lt_of_le ?_ (length_skipGap c)
  revert h
  unfold nextToken
  simp only
  split
  · simp
  · rename_i ch rest hrest
    intro _
    split
    · rename_i hd
      exact length_skipWhile_of_head hrest hd
    split
    · rename_i ha
      exact length_skipWhile_of_head hrest (isNamePart_of_isAlpha ha)
    · simp [hrest]

/-- Reads all tokens that are left, the one for the end included. -/
def tokens (c : Cursor) : List Token × Cursor :=
  let step := c.nextToken
  if _h : step.1.kind = .endOfText then ([step.1], step.2)
  else
    let others := step.2.tokens
    (step.1 :: others.1, others.2)
termination_by c.rest.length
decreasing_by exact length_nextToken _h

end Cursor

/-- The tokens of a text. The last one, and no other, stands for the end. -/
def tokenize (source : String) : List Token :=
  (Cursor.ofString source).tokens.1

/-! ## Pieces of names -/

/-- Whether `piece` stands somewhere in a row of characters. -/
def occursIn (piece : List Char) : List Char → Bool
  | [] => piece.isEmpty
  | c :: cs => piece.isPrefixOf (c :: cs) || occursIn piece cs

/-- Whether a text can stand inside a name as one piece: a piece of the ten digits in order,
letters only, or a piece of `_.$`. -/
def admitsInName (s : String) : Bool :=
  let cs := s.toList
  occursIn cs "0123456789".toList || (!cs.isEmpty && cs.all Char.isAlpha)
    || occursIn cs "_.$".toList

theorem occursIn_singleton (c : Char) (cs : List Char) : occursIn [c] cs = cs.contains c := by
  induction cs with
  | nil => rfl
  | cons d cs ih =>
    rw [occursIn, ih, List.contains_cons]
    simp [List.isPrefixOf]

/-- A single character stands inside a name if it is one of those that a name goes on with. -/
theorem admitsInName_singleton (c : Char) : admitsInName (String.singleton c) = isNamePart c := by
  have digits : "0123456789".toList.contains c = c.isDigit := by
    rw [Bool.eq_iff_iff]
    constructor
    · intro h
      have all : "0123456789".toList.all Char.isDigit = true := by decide
      exact List.all_eq_true.mp all c (List.contains_iff_mem.mp h)
    · intro h
      have bounds := toNat_of_isDigit h
      have all : ∀ k < 10, Char.ofNat (0x30 + k) ∈ "0123456789".toList := by decide
      rw [List.contains_iff_mem, ← Char.ofNat_toNat c]
      have := all (c.toNat - 0x30) (by omega)
      rwa [Nat.add_sub_cancel' bounds.1] at this
  have marks : "_.$".toList.contains c = (c == '_' || c == '.' || c == '$') := by
    rw [show "_.$".toList = ['_', '.', '$'] from by decide]
    simp only [List.contains_cons, List.contains_nil, Bool.or_false, Bool.or_assoc]
  rw [admitsInName, String.toList_singleton, occursIn_singleton, occursIn_singleton, digits,
    isNamePart, marks]
  simp only [List.isEmpty_cons, Bool.not_false, Bool.true_and, List.all_cons, List.all_nil,
    Bool.and_true, Bool.or_assoc]

end HackVm
