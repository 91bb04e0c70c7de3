import HackVm.Program.Block
import HackVm.Text.Class
import Mathlib.Data.List.DropRight

set_option autoImplicit false

/-! # Reading assembly text

What an assembler makes of a text: it goes through the lines, leaves out comments and blanks, and
takes every line that is not empty then as a label, as a number or a symbol to load, or as a
computation. A line that is none of these is refused, and with it the text.

`readAssembly_text` says that the text of a program reads back as the lines it was made from, if
the symbols in it are symbols to an assembler and its numbers are not negative. -/

namespace HackVm

open Text

/-! ## Symbols -/

/-- Symbols consist of letters, digits and four marks. -/
def isSymbolPart (c : Char) : Bool :=
  c.isDigit || c.isAlpha || c == '_' || c == '.' || c == '$' || c == ':'

/-- Whether characters make a symbol; a digit does not begin one. -/
def isSymbol : List Char → Bool
  | [] => false
  | c :: cs => !c.isDigit && (c :: cs).all isSymbolPart

/-- A text that an assembler takes for a symbol. -/
def IsSymbol (s : String) : Prop := isSymbol s.toList = true

instance (s : String) : Decidable (IsSymbol s) := inferInstanceAs (Decidable (_ = true))

theorem IsSymbol.append {s t : String} (h : IsSymbol s) (ht : t.toList.all isSymbolPart = true) :
    IsSymbol (s ++ t) := by
  unfold IsSymbol at h ⊢
  rw [String.toList_append]
  cases hs : s.toList with
  | nil =>
    rw [hs] at h
    cases h
  | cons c cs =>
    rw [hs, isSymbol, Bool.and_eq_true] at h
    rw [List.cons_append, isSymbol, ← List.cons_append, List.all_append, h.1, h.2, ht]
    rfl

theorem IsSymbol.all {s : String} (h : IsSymbol s) : s.toList.all isSymbolPart = true := by
  unfold IsSymbol at h
  cases hs : s.toList with
  | nil => rfl
  | cons c cs =>
    rw [hs, isSymbol, Bool.and_eq_true] at h
    exact h.2

theorem isSymbolPart_of_isNamePart {c : Char} (h : isNamePart c = true) :
    isSymbolPart c = true := by
  simp only [isNamePart, isSymbolPart, Bool.or_eq_true] at h ⊢
  exact .inl h

/-! ## Reading a line -/

/-- A line without its comment. -/
def withoutComment : List Char → List Char
  | [] => []
  | '/' :: '/' :: _ => []
  | c :: cs => c :: withoutComment cs

/-- A line without the blanks around it. -/
def strip (cs : List Char) : List Char :=
  (cs.dropWhile isBlank).rdropWhile isBlank

/-- Any of the three letters, in any order. -/
def readDestination (cs : List Char) : Option Destination :=
  if cs.all ['A', 'M', 'D'].contains then
    some ⟨cs.elem 'A', cs.elem 'M', cs.elem 'D'⟩
  else none

/-- All computations. -/
def Computation.all : List Computation :=
  let registers := [Register.a, .d, .m]
  let operations := [BinaryOp.add, .sub, .and, .or]
  [.zero, .one, .minusOne] ++
    registers.flatMap (fun x => [.copy x, .not x, .neg x, .succ x, .pred x]) ++
    operations.flatMap fun op => [Source.a, .m].flatMap fun y => [.dWith op y, .withD y op]

def readComputation (cs : List Char) : Option Computation :=
  Computation.all.find? fun c => c.text.toList == cs

/-- All jumps. -/
def Jump.all : List Jump := [.never, .gt, .eq, .ge, .lt, .ne, .le, .always]

def readJump (cs : List Char) : Option Jump :=
  Jump.all.find? fun j => j.text.toList == cs

/-- What stands in front of the sign that ends a destination, and what behind it. -/
def splitDestination (cs : List Char) : List Char × List Char :=
  if cs.elem '=' then (cs.takeWhile (· != '='), (cs.dropWhile (· != '=')).tail) else ([], cs)

def readCompute (cs : List Char) : Option Line := do
  let destination ← readDestination (splitDestination cs).1
  let computation ← readComputation ((splitDestination cs).2.takeWhile (· != ';'))
  let jump ← readJump ((splitDestination cs).2.dropWhile (· != ';'))
  return .compute destination computation jump

/-- Reads what is left of a line. -/
def readContent : List Char → Option Line
  | '(' :: cs =>
    if cs.getLast? = some ')' ∧ isSymbol cs.dropLast = true then
      some (.label (String.ofList cs.dropLast))
    else none
  | '@' :: cs =>
    if cs ≠ [] ∧ cs.all Char.isDigit = true then some (.number (Nat.ofDigitChars 10 cs 0))
    else if isSymbol cs = true then some (.symbol (String.ofList cs))
    else none
  | cs => readCompute cs

/-- Reads a row of lines, without the empty ones. -/
def readLines : List (List Char) → Option (List Line)
  | [] => some []
  | l :: ls =>
    match strip (withoutComment l) with
    | [] => readLines ls
    | content => do return (← readContent content) :: (← readLines ls)

/-- Reads a program; none if some line of it cannot be read. -/
def readAssembly (text : String) : Option (List Line) :=
  readLines (text.toList.splitOn '\n')

/-- A line whose text an assembler can read. -/
def Line.Readable : Line → Prop
  | .symbol name => IsSymbol name
  | .number n => 0 ≤ n
  | .compute _ _ _ => True
  | .label name => IsSymbol name

/-! ## Characters of a line -/

/-- A character that ends neither a line nor what is read of it. -/
def isPlain (c : Char) : Bool := !isBlank c && c != '/'

theorem isPlain_of_isDigit {c : Char} (h : c.isDigit = true) : isPlain c = true := by
  have hnat := toNat_of_isDigit h
  rw [isPlain, isBlank_eq_false_of_isDigit h]
  simp only [Bool.not_false, Bool.true_and, bne_iff_ne, ne_eq]
  rintro rfl
  exact absurd h (by decide)

theorem isPlain_of_isSymbolPart {c : Char} (h : isSymbolPart c = true) : isPlain c = true := by
  simp only [isSymbolPart, Bool.or_eq_true, beq_iff_eq] at h
  rcases h with ((((h | h) | rfl) | rfl) | rfl) | rfl
  · exact isPlain_of_isDigit h
  · rw [isPlain, isBlank_eq_false_of_isAlpha h]
    simp only [Bool.not_false, Bool.true_and, bne_iff_ne, ne_eq]
    rintro rfl
    exact absurd h (by decide)
  all_goals decide

theorem withoutComment_of_isPlain {cs : List Char} (h : cs.all isPlain = true) :
    withoutComment cs = cs := by
  fun_induction withoutComment cs with
  | case1 => rfl
  | case2 cs => cases h
  | case3 c cs hc ih =>
    rw [List.all_cons, Bool.and_eq_true] at h
    rw [ih h.2]

theorem strip_of_isPlain {cs : List Char} (h : cs.all isPlain = true) : strip cs = cs := by
  have hblank : ∀ c ∈ cs, ¬ isBlank c = true := by
    intro c hc hb
    have hplain := List.all_eq_true.mp h c hc
    rw [isPlain, hb] at hplain
    cases hplain
  have hfront : cs.dropWhile isBlank = cs := by
    cases cs with
    | nil => rfl
    | cons c cs =>
      rw [List.dropWhile_cons, if_neg (hblank c List.mem_cons_self)]
  rw [strip, hfront, List.rdropWhile_eq_self_iff]
  intro hne
  exact hblank _ (List.getLast_mem hne)

/-! ## Reading single lines -/

theorem readDestination_letters (t : Destination) :
    readDestination ((if t.a then ['A'] else []) ++ (if t.m then ['M'] else []) ++
      (if t.d then ['D'] else [])) = some t := by
  obtain ⟨a, m, d⟩ := t
  cases a <;> cases m <;> cases d <;> rfl

theorem readComputation_text (c : Computation) : readComputation c.text.toList = some c := by
  cases c with
  | zero | one | minusOne => rfl
  | copy x | not x | neg x | succ x | pred x => cases x <;> rfl
  | dWith op y => cases op <;> cases y <;> rfl
  | withD x op => cases op <;> cases x <;> rfl

theorem readJump_text (j : Jump) : readJump j.text.toList = some j := by
  cases j <;> rfl

/-- The letters of a destination are those of its text, up to the sign that ends them. -/
theorem splitDestination_text (t : Destination) {cs : List Char} (h : cs.elem '=' = false) :
    splitDestination (t.text.toList ++ cs) =
      ((if t.a then ['A'] else []) ++ (if t.m then ['M'] else []) ++
        (if t.d then ['D'] else []), cs) := by
  obtain ⟨a, m, d⟩ := t
  cases a <;> cases m <;> cases d
  case false.false.false =>
    show splitDestination cs = ([], cs)
    rw [splitDestination, h]
    rfl
  all_goals rfl

/-- A character of a computation: it does not make a line a label or a load. -/
def isComputePart (c : Char) : Bool := isPlain c && c != '(' && c != '@'

theorem Destination.text_parts (t : Destination) : t.text.toList.all isComputePart = true := by
  obtain ⟨a, m, d⟩ := t
  cases a <;> cases m <;> cases d <;> rfl

/-- No computation has in it what ends a destination or begins a jump. -/
theorem Computation.text_parts (c : Computation) :
    c.text.toList.all (fun x => x != '=' && x != ';' && isComputePart x) = true := by
  cases c with
  | zero | one | minusOne => rfl
  | copy x | not x | neg x | succ x | pred x => cases x <;> rfl
  | dWith op y => cases op <;> cases y <;> rfl
  | withD x op => cases op <;> cases x <;> rfl

theorem Jump.text_parts (j : Jump) :
    j.text.toList.all (fun x => x != '=' && isComputePart x) = true ∧
      (j.text.toList = [] ∨ ∃ cs, j.text.toList = ';' :: cs) := by
  cases j with
  | never => exact ⟨rfl, .inl rfl⟩
  | _ => exact ⟨rfl, .inr ⟨_, rfl⟩⟩

theorem text_compute (t : Destination) (c : Computation) (j : Jump) :
    (Line.compute t c j).text.toList = t.text.toList ++ (c.text.toList ++ j.text.toList) := by
  simp [Line.text, String.toList_append, List.append_assoc]

theorem isComputePart_of_mem {t : Destination} {c : Computation} {j : Jump} {x : Char}
    (h : x ∈ (Line.compute t c j).text.toList) : isComputePart x = true := by
  rw [text_compute, List.mem_append, List.mem_append] at h
  rcases h with h | h | h
  · exact List.all_eq_true.mp t.text_parts x h
  · have hparts := List.all_eq_true.mp c.text_parts x h
    exact (Bool.and_eq_true_iff.mp hparts).2
  · have hparts := List.all_eq_true.mp j.text_parts.1 x h
    exact (Bool.and_eq_true_iff.mp hparts).2

theorem readCompute_text (t : Destination) (c : Computation) (j : Jump) :
    readCompute (Line.compute t c j).text.toList = some (.compute t c j) := by
  have hc : ∀ x ∈ c.text.toList, x ≠ '=' ∧ x ≠ ';' := by
    intro x hx
    have hparts := List.all_eq_true.mp c.text_parts x hx
    simp only [Bool.and_eq_true, bne_iff_ne] at hparts
    exact hparts.1
  obtain ⟨hjump, hbegin⟩ := j.text_parts
  have hsign : (c.text.toList ++ j.text.toList).elem '=' = false := by
    rw [Bool.eq_false_iff, ne_eq, List.elem_iff, List.mem_append, not_or]
    refine ⟨fun h => (hc _ h).1 rfl, fun h => ?_⟩
    have hparts := List.all_eq_true.mp hjump _ h
    cases hparts
  -- the text is cut where its parts meet, since the signs stand nowhere else
  have hfront : ∀ x ∈ c.text.toList, (x != ';') = true := fun x hx => bne_iff_ne.mpr (hc x hx).2
  rw [readCompute, text_compute, splitDestination_text t hsign, List.takeWhile_append_of_pos hfront,
    List.dropWhile_append_of_pos hfront]
  have hcut : j.text.toList.takeWhile (· != ';') = [] ∧
      j.text.toList.dropWhile (· != ';') = j.text.toList := by
    rcases hbegin with h | ⟨cs, h⟩ <;> rw [h] <;> exact ⟨rfl, rfl⟩
  rw [hcut.1, hcut.2, List.append_nil, readDestination_letters, readComputation_text, readJump_text]
  rfl

theorem text_number (n : Nat) : (Line.number n).text.toList = '@' :: Nat.toDigits 10 n := by
  have hdigits : (toString (n : Int)).toList = Nat.toDigits 10 n := by
    show (toString n).toList = _
    rw [Nat.toString_eq_ofList_toDigits, String.toList_ofList]
  rw [Line.text, String.toList_append, hdigits]
  rfl

theorem readContent_number (n : Nat) :
    readContent (Line.number n).text.toList = some (.number n) := by
  have hall : (Nat.toDigits 10 n).all Char.isDigit = true :=
    List.all_eq_true.mpr fun c hc => Nat.isDigit_of_mem_toDigits (by decide) (by decide) hc
  have hne : Nat.toDigits 10 n ≠ [] := Nat.toDigits_ne_nil
  rw [text_number, readContent, if_pos ⟨hne, hall⟩]
  simp

theorem readContent_symbol {name : String} (h : IsSymbol name) :
    readContent (Line.symbol name).text.toList = some (.symbol name) := by
  have htext : (Line.symbol name).text.toList = '@' :: name.toList := by
    rw [Line.text, String.toList_append]
    rfl
  -- a symbol is not taken for a number, since no digit begins it
  have hdigit : ¬ (name.toList ≠ [] ∧ name.toList.all Char.isDigit = true) := by
    rintro ⟨-, hall⟩
    unfold IsSymbol at h
    cases hs : name.toList with
    | nil =>
      rw [hs] at h
      cases h
    | cons c cs =>
      rw [hs, isSymbol, Bool.and_eq_true, Bool.not_eq_true'] at h
      rw [hs, List.all_cons, h.1] at hall
      cases hall
  have hsymbol : isSymbol name.toList = true := h
  rw [htext, readContent, if_neg hdigit, if_pos hsymbol, String.ofList_toList]

theorem readContent_label {name : String} (h : IsSymbol name) :
    readContent (Line.label name).text.toList = some (.label name) := by
  have htext : (Line.label name).text.toList = '(' :: (name.toList ++ [')']) := by
    rw [Line.text, String.toList_append, String.toList_append]
    rfl
  have hlast : (name.toList ++ [')']).dropLast = name.toList := List.dropLast_concat
  rw [htext, readContent, hlast, if_pos ⟨List.getLast?_concat, h⟩, String.ofList_toList]

theorem readContent_compute (t : Destination) (c : Computation) (j : Jump) :
    readContent (Line.compute t c j).text.toList = some (.compute t c j) := by
  have hne : ∀ x cs, (Line.compute t c j).text.toList = x :: cs → x ≠ '(' ∧ x ≠ '@' := by
    intro x cs hx
    have hpart := isComputePart_of_mem (hx ▸ List.mem_cons_self)
    simp only [isComputePart, Bool.and_eq_true, bne_iff_ne] at hpart
    exact ⟨hpart.1.2, hpart.2⟩
  rw [← readCompute_text t c j]
  unfold readContent
  split
  · rename_i cs heq
    exact absurd rfl (hne _ cs heq).1
  · rename_i cs heq
    exact absurd rfl (hne _ cs heq).2
  · rfl

theorem readContent_text {line : Line} (h : line.Readable) :
    readContent line.text.toList = some line := by
  cases line with
  | symbol name => exact readContent_symbol h
  | number n =>
    obtain ⟨k, rfl⟩ := Int.eq_ofNat_of_zero_le h
    exact readContent_number k
  | compute t c j => exact readContent_compute t c j
  | label name => exact readContent_label h

theorem isPlain_text {line : Line} (h : line.Readable) :
    line.text.toList.all isPlain = true := by
  have hsymbol : ∀ name, IsSymbol name → name.toList.all isPlain = true := by
    intro name hname
    refine List.all_eq_true.mpr fun c hc => isPlain_of_isSymbolPart ?_
    exact List.all_eq_true.mp hname.all c hc
  cases line with
  | symbol name =>
    rw [Line.text, String.toList_append, List.all_append, hsymbol name h]
    rfl
  | number n =>
    obtain ⟨k, rfl⟩ := Int.eq_ofNat_of_zero_le h
    rw [text_number, List.all_cons, Bool.and_eq_true]
    refine ⟨rfl, List.all_eq_true.mpr fun c hc => isPlain_of_isDigit ?_⟩
    exact Nat.isDigit_of_mem_toDigits (by decide) (by decide) hc
  | compute t c j =>
    refine List.all_eq_true.mpr fun x hx => ?_
    have hpart := isComputePart_of_mem hx
    simp only [isComputePart, Bool.and_eq_true] at hpart
    exact hpart.1.1
  | label name =>
    rw [Line.text, String.toList_append, String.toList_append, List.all_append, List.all_append,
      hsymbol name h]
    rfl

/-! ## Reading texts -/

theorem readLines_text {line : Line} (h : line.Readable) (ls : List (List Char)) :
    readLines (line.text.toList :: ls) = (readLines ls).map (line :: ·) := by
  have hplain := isPlain_text h
  have hne : line.text.toList ≠ [] := by
    intro hnil
    have hcontent := readContent_text h
    rw [hnil] at hcontent
    cases hcontent
  rw [readLines, withoutComment_of_isPlain hplain, strip_of_isPlain hplain]
  split
  · contradiction
  · rw [readContent_text h]
    cases readLines ls <;> rfl

/-- Comments say nothing to an assembler. -/
theorem readLines_comment (header : String) (ls : List (List Char)) :
    readLines (("// " ++ header).toList :: ls) = readLines ls := by
  have hcomment : withoutComment ("// " ++ header).toList = [] := by
    rw [String.toList_append]
    rfl
  rw [readLines, hcomment]
  rfl

theorem readLines_body {body : List Line} (h : ∀ line ∈ body, line.Readable)
    (ls : List (List Char)) :
    readLines (body.map (fun line => line.text.toList) ++ ls) =
      (readLines ls).map (body ++ ·) := by
  induction body with
  | nil => cases hls : readLines ls <;> simp [hls]
  | cons line body ih =>
    rw [List.map_cons, List.cons_append, readLines_text (h line List.mem_cons_self),
      ih fun l hl => h l (List.mem_cons_of_mem _ hl)]
    cases readLines ls <;> rfl

/-- A block reads back as its lines; what stands above it and behind it is left out. -/
theorem readLines_lines (comments : Bool) {b : Block} (h : ∀ line ∈ b.body, line.Readable)
    (ls : List (List Char)) :
    readLines ((b.lines comments).map String.toList ++ ls) =
      (readLines ls).map (b.body ++ ·) := by
  have hbody : readLines (b.body.map (fun line => line.text.toList) ++ [] :: ls) =
      (readLines ls).map (b.body ++ ·) := by
    rw [readLines_body h]
    rfl
  have hlines : (b.body.map Line.text ++ [""]).map String.toList ++ ls =
      b.body.map (fun line => line.text.toList) ++ [] :: ls := by
    simp
  cases comments with
  | false =>
    rw [← hbody, ← hlines]
    rfl
  | true =>
    rw [← hbody, ← hlines]
    exact readLines_comment b.header _

/-- Text made of lines splits into these lines, with nothing behind the last. -/
theorem splitOn_joinLines {lines : List String} (h : ∀ l ∈ lines, '\n' ∉ l.toList) :
    (Block.joinLines lines).toList.splitOn '\n' = lines.map String.toList ++ [[]] := by
  induction lines with
  | nil => rfl
  | cons l lines ih =>
    have hcons : (Block.joinLines (l :: lines)).toList =
        l.toList ++ '\n' :: (Block.joinLines lines).toList := by
      simp [Block.joinLines, String.toList_append]
    rw [hcons, List.splitOn_append_cons_self_of_not_mem (h l List.mem_cons_self),
      ih fun k hk => h k (List.mem_cons_of_mem _ hk)]
    rfl

/-- A block that an assembler can read: its lines are readable and its header is one line. -/
structure Block.Readable (b : Block) : Prop where
  body : ∀ line ∈ b.body, line.Readable
  header : '\n' ∉ b.header.toList

/-- No line feed stands in the lines of a block if none stands in its code and its header. -/
theorem Block.newline_not_mem_lines {b : Block} (hbody : ∀ line ∈ b.body, '\n' ∉ line.text.toList)
    (hheader : '\n' ∉ b.header.toList) (comments : Bool) :
    ∀ l ∈ b.lines comments, '\n' ∉ l.toList := by
  have hcomment : '\n' ∉ ("// " ++ b.header).toList := by
    rw [String.toList_append, List.mem_append, not_or]
    exact ⟨by decide, hheader⟩
  intro l hl
  rw [Block.lines, List.mem_append, List.mem_append, List.mem_singleton] at hl
  rcases hl with (hl | hl) | rfl
  · cases comments with
    | false => cases hl
    | true =>
      obtain rfl := List.mem_singleton.mp hl
      exact hcomment
  · obtain ⟨line, hline, rfl⟩ := List.mem_map.mp hl
    exact hbody line hline
  · exact List.not_mem_nil

theorem Block.Readable.not_mem_lines {b : Block} (h : b.Readable) (comments : Bool) :
    ∀ l ∈ b.lines comments, '\n' ∉ l.toList := by
  refine Block.newline_not_mem_lines (fun line hline hfeed => ?_) h.header comments
  have hplain := List.all_eq_true.mp (isPlain_text (h.body line hline)) _ hfeed
  cases hplain

/-- The text of a program reads back as the lines of its blocks. -/
theorem readAssembly_text (comments : Bool) {blocks : List Block} (hne : blocks ≠ [])
    (h : ∀ b ∈ blocks, b.Readable) :
    readAssembly (Block.text comments blocks) = some (blocks.flatMap Block.body) := by
  have hfeed : ∀ l ∈ blocks.flatMap (Block.lines comments), '\n' ∉ l.toList := by
    intro l hl
    obtain ⟨b, hb, hl⟩ := List.mem_flatMap.mp hl
    exact (h b hb).not_mem_lines comments l hl
  -- the last piece behind the last line feed is empty and adds no line
  have hread : readLines ((blocks.flatMap (Block.lines comments)).map String.toList ++ [[]]) =
      some (blocks.flatMap Block.body) := by
    clear hne hfeed
    induction blocks with
    | nil => rfl
    | cons b blocks ih =>
      rw [List.flatMap_cons, List.map_append, List.append_assoc,
        readLines_lines comments (h b List.mem_cons_self).body,
        ih fun b' hb' => h b' (List.mem_cons_of_mem _ hb')]
      rfl
  rw [readAssembly, Block.text_of_ne_nil comments hne, splitOn_joinLines hfeed, hread]

end HackVm
