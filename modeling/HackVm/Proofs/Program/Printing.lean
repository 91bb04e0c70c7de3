import HackVm.Proofs.Program.AssemblyLines
import HackVm.Proofs.Token.Cut

set_option autoImplicit false

/-! # Printing commands

Commands are printed with one to a line. A label has its complete name in a command and the one it
has in its function in a text, and the address that a call returns to is not written at all, so
what is printed can be read only where the same functions are declared. It is:
`readUnit_printed` says that printing what was read and reading it again gives the same commands,
the one with number `k` in line `k`.

A printed text is a row of pieces, and those of one instruction are the tokens of a phrase
(`Instruction.spelled_pieces`). The statements are followed through by `Resolves.printed`. -/

namespace HackVm

open Text

/-! ## Commands as text -/

/-- The name of a label without that of the function around it. -/
def nameWithin (function : Option String) (complete : String) : String :=
  match function with
  | none => complete
  | some f => ((Scope.enter f).localLabel complete).name

/-- A command whose label has the name that it has in its function. -/
def Command.within (function : Option String) : Command → Command
  | .label name => .label (nameWithin function name)
  | .goto name => .goto (nameWithin function name)
  | .ifGoto name => .ifGoto (nameWithin function name)
  | c => c

/-- The lines of commands. The function around a command is the one declared last. -/
def printedLines : Option String → List Command → List String
  | _, [] => []
  | function, c :: cs => (c.within function).text :: printedLines (c.declares?.or function) cs

def printed (cs : List Command) : String := "\n".intercalate (printedLines none cs)

/-! ## Pieces of an instruction -/

/-- A name behind a space. -/
def Piece.word (name : String) : Piece := ⟨[' '], .identifier, name.toList⟩

/-- A number behind a space. -/
def Piece.numeral (n : Nat) : Piece := ⟨[' '], .number, (toString n).toList⟩

namespace Instruction

/-- What is printed behind the first word of an instruction. -/
def operandPieces : Instruction → List Piece
  | .arithmetic _ | .ret => []
  | .push segment n | .pop segment n => [.word segment.keyword, .numeral n]
  | .label name | .goto name => [.word name]
  | .ifGoto name => [⟨[], .symbol, ['-']⟩, ⟨[], .identifier, "goto".toList⟩, .word name]
  | .function name n | .call name n => [.word name, .numeral n]

/-- What is printed for an instruction, behind the characters `gap`. -/
def pieces (gap : List Char) (i : Instruction) : List Piece :=
  ⟨gap, .identifier, i.keyword.toList⟩ :: i.operandPieces

end Instruction

/-- What is printed for instructions, each on a line of its own. -/
def programPieces (gap : List Char) : List Instruction → List Piece
  | [] => []
  | i :: is => i.pieces gap ++ programPieces ['\n'] is

/-- The phrases that are printed for instructions. -/
def phrasesFrom (start : Position) (gap : List Char) : List Instruction → List Phrase
  | [] => []
  | i :: is =>
    ⟨i, tokensFrom start (i.pieces gap)⟩ ::
      phrasesFrom (start.after (charsOf (i.pieces gap))) ['\n'] is

theorem charsOf_pieces (gap : List Char) (i : Instruction) :
    charsOf (i.pieces gap) = gap ++ charsOf (i.pieces []) := by
  simp only [Instruction.pieces, charsOf_cons, Piece.chars, List.nil_append, List.append_assoc]

/-- A command is printed as the instruction it comes from. -/
theorem toList_text_within {i : Instruction} {scope scope' : Option Scope} {c : Command}
    (h : i.resolve scope = .ok (c, scope')) :
    (c.within (scope.map Scope.function)).text.toList = charsOf (i.pieces []) := by
  have hname : ∀ (s : Scope) (name : String),
      nameWithin (some s.function) (s.qualify name) = name := by
    intro s name
    exact congrArg LocalLabel.name ((Scope.enter s.function).localLabel_qualify name)
  cases i with
  | arithmetic op =>
    cases h
    simp [Command.within, Command.text, Instruction.pieces, Instruction.operandPieces,
      Instruction.keyword, Piece.chars]
  | push segment n | pop segment n | function name n =>
    cases h
    have hn : toString (n : Int) = toString n := rfl
    simp [Command.within, Command.text, hn, Instruction.pieces, Instruction.operandPieces,
      Instruction.keyword, Piece.word, Piece.numeral, Piece.chars]
  | label name | goto name | ifGoto name =>
    cases scope with
    | none => cases h
    | some s =>
      cases h
      simp [Command.within, Command.text, hname, Instruction.pieces, Instruction.operandPieces,
        Instruction.keyword, Piece.word, Piece.chars]
  | call callee n =>
    cases scope with
    | none => cases h
    | some s =>
      cases h
      have hn : toString (n : Int) = toString n := rfl
      simp [Command.within, Command.text, hn, Instruction.pieces, Instruction.operandPieces,
        Instruction.keyword, Piece.word, Piece.numeral, Piece.chars]
  | ret =>
    cases scope with
    | none => cases h
    | some s =>
      cases h
      simp [Command.within, Command.text, Instruction.pieces, Instruction.operandPieces,
        Instruction.keyword, Piece.chars]

/-- The function around what follows an instruction. -/
theorem declares?_or_function {i : Instruction} {scope scope' : Option Scope} {c : Command}
    (h : i.resolve scope = .ok (c, scope')) :
    c.declares?.or (scope.map Scope.function) = scope'.map Scope.function := by
  cases scope with
  | none => cases i <;> cases h <;> rfl
  | some s => cases i <;> cases h <;> rfl

theorem Resolves.toList_printedLines {scope : Option Scope} {phrases : List Phrase}
    {statements : List Statement} (h : Resolves scope phrases statements) :
    (printedLines (scope.map Scope.function) (statements.map Statement.command)).map String.toList =
      phrases.map fun p => charsOf (p.instruction.pieces []) := by
  induction h with
  | nil scope => rfl
  | cons resolved position others ih =>
    rw [List.map_cons, printedLines, List.map_cons, List.map_cons, toList_text_within resolved,
      declares?_or_function resolved, ih]

theorem charsOf_programPieces (is : List Instruction) :
    charsOf (programPieces [] is) = ['\n'].intercalate (is.map fun i => charsOf (i.pieces [])) := by
  have hgap : ∀ js : List Instruction, js ≠ [] →
      charsOf (programPieces ['\n'] js) = '\n' :: charsOf (programPieces [] js) := by
    intro js hjs
    obtain ⟨j, js, rfl⟩ := List.exists_cons_of_ne_nil hjs
    rw [programPieces, charsOf_append, charsOf_pieces, programPieces, charsOf_append]
    rfl
  induction is with
  | nil => rfl
  | cons i is ih =>
    rw [programPieces, charsOf_append]
    cases is with
    | nil => simp [programPieces]
    | cons j js =>
      rw [hgap _ (List.cons_ne_nil j js), ih]
      simp [List.intercalate]

/-! ## The pieces are tokens -/

theorem isName_of_head?_of_tail {s : String}
    (h : (s.toList.head?.any Char.isAlpha && s.toList.tail.all isNamePart) = true) : IsName s := by
  cases hs : s.toList with
  | nil =>
    rw [hs] at h
    cases h
  | cons c cs =>
    rw [hs] at h
    obtain ⟨hc, hcs⟩ := Bool.and_eq_true_iff.mp h
    exact ⟨c, cs, hs, hc, List.all_eq_true.mp hcs⟩

theorem Instruction.isName_keyword (i : Instruction) : IsName i.keyword := by
  refine isName_of_head?_of_tail ?_
  cases i with
  | arithmetic op => cases op <;> decide
  | _ =>
    rw [Instruction.keyword]
    decide

theorem Segment.isName_keyword (segment : Segment) : IsName segment.keyword := by
  refine isName_of_head?_of_tail ?_
  cases segment with
  | based base => cases base <;> decide
  | _ => decide

/-- A name ends where it is followed by what no name goes on with. -/
theorem IsName.fitsBefore {name : String} (h : IsName name) {gap rest : List Char}
    (hgap : IsGap gap (name.toList ++ rest)) (hrest : ∀ c ∈ rest.head?, isNamePart c = false) :
    Piece.FitsBefore ⟨gap, .identifier, name.toList⟩ rest := by
  obtain ⟨c, cs, hname, hc, hcs⟩ := h
  refine ⟨hgap, ?_⟩
  show IsLexeme .identifier name.toList rest
  rw [hname]
  exact .identifier hc hcs hrest

theorem isGap_space (rest : List Char) : IsGap [' '] rest := .blank rfl (.nil rest)

theorem Piece.fitsBefore_numeral (n : Nat) {rest : List Char}
    (hrest : ∀ c ∈ rest.head?, c.isDigit = false) : (Piece.numeral n).FitsBefore rest := by
  refine ⟨isGap_space _, .number ?_ (fun c hc => isDigit_of_mem_toString hc) hrest⟩
  show (toString n).toList ≠ []
  rw [Nat.toString_eq_ofList_toDigits, String.toList_ofList]
  exact Nat.toDigits_ne_nil

/-- A line ends in a line feed or with the text. -/
def EndsLine (rest : List Char) : Prop := ∀ c ∈ rest.head?, c = '\n'

/-- Lines end in gaps only. -/
theorem newline_not_mem_charsOf {rest : List Char} {ps : List Piece} (h : FitBefore rest ps)
    (hgaps : ∀ p ∈ ps, '\n' ∉ p.gap) : '\n' ∉ charsOf ps := by
  induction ps with
  | nil => exact List.not_mem_nil
  | cons p ps ih =>
    rw [charsOf_cons, Piece.chars, List.mem_append, List.mem_append, not_or, not_or]
    refine ⟨⟨hgaps p List.mem_cons_self, fun hmem => ?_⟩, ih h.2 fun q hq => ?_⟩
    · exact absurd (h.1.text.isBlank_eq_false _ hmem) (by decide)
    · exact hgaps q (List.mem_cons_of_mem p hq)

namespace Instruction

theorem fitBefore_operandPieces {i : Instruction} (named : i.Named) {rest : List Char}
    (hrest : EndsLine rest) : FitBefore rest i.operandPieces := by
  have hend : ∀ c ∈ rest.head?, isNamePart c = false := by
    intro c hc
    rw [hrest c hc]
    decide
  have hdigit : ∀ c ∈ rest.head?, c.isDigit = false := by
    intro c hc
    rw [hrest c hc]
    decide
  have hspace : ∀ (cs : List Char), ∀ c ∈ (' ' :: cs).head?, isNamePart c = false := by
    rintro cs c ⟨⟩
    decide
  have hnumeral : ∀ n : Nat, FitBefore rest [Piece.numeral n] :=
    fun n => ⟨Piece.fitsBefore_numeral n hdigit, trivial⟩
  have hgoto : IsName "goto" := isName_of_head?_of_tail (by decide)
  cases i with
  | arithmetic op | ret => trivial
  | push segment n | pop segment n =>
    exact ⟨segment.isName_keyword.fitsBefore (isGap_space _) (hspace _), hnumeral n⟩
  | function name n | call name n =>
    exact ⟨named.fitsBefore (isGap_space _) (hspace _), hnumeral n⟩
  | label name | goto name => exact ⟨named.fitsBefore (isGap_space _) hend, trivial⟩
  | ifGoto name =>
    have hdash : '-' ≠ '/' := by decide
    refine ⟨⟨.nil _, .symbol (by decide) (by decide) (by decide) (absurd · hdash)⟩, ?_, ?_,
      trivial⟩
    · exact hgoto.fitsBefore (.nil _) (hspace _)
    · exact named.fitsBefore (isGap_space _) hend

theorem fitBefore_pieces {i : Instruction} (named : i.Named) {gap rest : List Char}
    (hgap : ∀ cs, IsGap gap cs) (hrest : EndsLine rest) : FitBefore rest (i.pieces gap) := by
  refine ⟨i.isName_keyword.fitsBefore (hgap _) ?_, fitBefore_operandPieces named hrest⟩
  intro c hc
  cases i with
  | arithmetic op | ret =>
    rw [hrest c hc]
    decide
  | _ =>
    cases hc
    decide

/-- The pieces of an instruction are a spelling of it. -/
theorem spelled_pieces {i : Instruction} (bounded : i.Bounded) (gap : List Char) :
    i.Spelled ((i.pieces gap).map fun p => (p.kind, String.ofList p.text)) := by
  have hnumeral : ∀ n ≤ Memory.maxIndex, IsNumeral (toString n) n := by
    intro n hn
    refine ⟨?_, ?_, hn⟩
    · rw [Nat.toString_eq_ofList_toDigits, String.length_ofList]
      have hshort : (Nat.toDigits 10 n).length ≤ 5 := by
        rw [Nat.length_toDigits_le_iff (by decide) (by decide)]
        exact Nat.lt_of_le_of_lt hn (by decide)
      exact Nat.le_trans hshort (by decide)
    · simp
  refine ⟨i.operandPieces.map fun p => (p.kind, String.ofList p.text), ?_, ?_⟩
  · rw [pieces, List.map_cons, String.ofList_toList]
  · cases i with
    | push segment n | pop segment n | function name n | call name n =>
      refine ⟨toString n, hnumeral n bounded, ?_⟩
      simp only [operandPieces, List.map_cons, List.map_nil, Piece.word, Piece.numeral,
        String.ofList_toList]
    | _ => simp [operandPieces, SpelledOperands, Piece.word]

theorem newline_not_mem_pieces {i : Instruction} (named : i.Named) :
    '\n' ∉ charsOf (i.pieces []) := by
  have hfit : FitBefore [] (i.pieces []) :=
    fitBefore_pieces named (fun cs => .nil cs) (by rintro c ⟨⟩)
  refine newline_not_mem_charsOf hfit ?_
  cases i <;> simp [pieces, operandPieces, Piece.word, Piece.numeral]

end Instruction

theorem endsLine_programPieces (is : List Instruction) :
    EndsLine (charsOf (programPieces ['\n'] is) ++ []) := by
  intro c hc
  cases is with
  | nil => cases hc
  | cons i is =>
    cases hc
    rfl

theorem fitBefore_programPieces {is : List Instruction} (named : ∀ i ∈ is, i.Named)
    {gap : List Char} (hgap : ∀ cs, IsGap gap cs) : FitBefore [] (programPieces gap is) := by
  induction is generalizing gap with
  | nil => trivial
  | cons i is ih =>
    refine fitBefore_append.mpr ⟨?_, ?_⟩
    · exact Instruction.fitBefore_pieces (named i List.mem_cons_self) hgap
        (endsLine_programPieces is)
    · exact ih (fun j hj => named j (List.mem_cons_of_mem i hj)) fun cs => .blank rfl (.nil cs)

/-! ## Reading what is printed -/

theorem flatMap_phrasesFrom (start : Position) (gap : List Char) (is : List Instruction) :
    (phrasesFrom start gap is).flatMap Phrase.tokens = tokensFrom start (programPieces gap is) := by
  induction is generalizing start gap with
  | nil => rfl
  | cons i is ih =>
    rw [phrasesFrom, List.flatMap_cons, ih, programPieces, tokensFrom_append]

theorem map_lexeme_tokensFrom (start : Position) (ps : List Piece) :
    (tokensFrom start ps).map Token.lexeme = ps.map fun p => (p.kind, String.ofList p.text) := by
  induction ps generalizing start with
  | nil => rfl
  | cons p ps ih => rw [tokensFrom, List.map_cons, List.map_cons, ih, Token.lexeme]

theorem spelled_of_mem_phrasesFrom {start : Position} {gap : List Char} {is : List Instruction}
    (bounded : ∀ i ∈ is, i.Bounded) : ∀ p ∈ phrasesFrom start gap is, p.Spelled := by
  induction is generalizing start gap with
  | nil => exact List.forall_mem_nil _
  | cons i is ih =>
    refine List.forall_mem_cons.mpr ⟨?_, ih fun j hj => bounded j (List.mem_cons_of_mem i hj)⟩
    rw [Phrase.Spelled, map_lexeme_tokensFrom]
    exact Instruction.spelled_pieces (bounded i List.mem_cons_self) gap

/-- Behind an instruction that begins a line and a line feed the next line begins. -/
theorem after_pieces {i : Instruction} (named : i.Named) {start : Position} {gap : List Char}
    {line : Nat} (hstart : start.after gap = ⟨line, 0⟩) :
    (start.after (charsOf (i.pieces gap))).after ['\n'] = ⟨line + 1, 0⟩ := by
  rw [charsOf_pieces, Position.after_append, hstart,
    Position.after_of_not_mem _ (Instruction.newline_not_mem_pieces named)]
  rfl

/-- What phrases stand for is what their instructions stand for where they are printed. The
induction carries the line. -/
theorem Resolves.printed {scope : Option Scope} {phrases : List Phrase}
    {statements : List Statement} (h : Resolves scope phrases statements)
    (named : ∀ p ∈ phrases, p.instruction.Named) {start : Position} {gap : List Char} {line : Nat}
    (hstart : start.after gap = ⟨line, 0⟩) :
    Resolves scope (phrasesFrom start gap (phrases.map Phrase.instruction))
      ((statements.map Statement.command).mapIdx fun k c => ⟨c, ⟨line + k, 0⟩⟩) := by
  induction h generalizing start gap line with
  | nil scope => exact .nil scope
  | @cons scope scope' p ps s ss resolved position others ih =>
    rw [List.map_cons, List.map_cons, List.mapIdx_cons, phrasesFrom]
    refine .cons resolved (congrArg some hstart) ?_
    have hnext := ih (fun q hq => named q (List.mem_cons_of_mem p hq))
      (after_pieces (named p List.mem_cons_self) hstart)
    simpa only [Nat.add_assoc, Nat.add_comm 1] using hnext

/-- Printing the commands of a text and reading them again gives them back, under any name of a
unit, with one to each line. -/
theorem readUnit_printed {source unit : String} {statements : List Statement}
    (h : readUnit source unit = .ok statements) (unit' : String) :
    readUnit (printed (statements.map Statement.command)) unit' =
      .ok ((statements.map Statement.command).mapIdx fun k c => ⟨c, ⟨k, 0⟩⟩) := by
  obtain ⟨hfailure, rfl⟩ := readUnit_eq_ok_iff.mp h
  have hgenuine := genuine_ofString source unit
  obtain ⟨phrases, hpending, hspelled, hresolves, -⟩ :=
    Reader.phrases_of_readAll hgenuine hfailure
  have named : ∀ p ∈ phrases, p.instruction.Named := by
    intro p hp
    refine (hspelled p hp).named fun t ht => ?_
    exact (hgenuine t (hpending ▸ List.mem_flatMap.mpr ⟨p, hp, ht⟩)).2
  generalize (Reader.ofString source unit).readAll.statements = statements at hresolves ⊢
  replace hresolves : Resolves none phrases statements := hresolves
  have hlines := hresolves.toList_printedLines
  rw [Option.map_none] at hlines
  let is := phrases.map Phrase.instruction
  let cut : Cut := ⟨programPieces [] is, []⟩
  have hvalid : cut.Valid := by
    refine ⟨fitBefore_programPieces (List.forall_mem_map.mpr named) fun cs => .nil cs, .nil []⟩
  have hsource : cut.source = (printed (statements.map Statement.command)).toList := by
    rw [Cut.source, List.append_nil, charsOf_programPieces, HackVm.printed,
      String.toList_intercalate, hlines, List.map_map]
    rfl
  have htokens := hvalid.tokenize_eq hsource
  have hprinted : (Reader.ofString (printed (statements.map Statement.command)) unit').pending =
      (phrasesFrom .start [] is).flatMap Phrase.tokens := by
    show (tokenize _).dropLast = _
    rw [flatMap_phrasesFrom, htokens, Cut.tokens, List.dropLast_concat]
  have hbegin : Position.start.after [] = ⟨0, 0⟩ := rfl
  have hread := Reader.readAll_of_phrases (genuine_ofString _ unit') hprinted
    (spelled_of_mem_phrasesFrom (List.forall_mem_map.mpr fun p hp => (hspelled p hp).bounded))
    (hresolves.printed named hbegin)
  simpa only [Nat.zero_add] using readUnit_eq_ok_iff.mpr hread

/-- Labels and return addresses of a loop, read from one line and again from the lines printed. -/
theorem readUnit_printed_loop :
    readUnit "function f 1 label A call f 00 if-goto A call g 2 // done" "Main" =
        .ok [⟨.function "f" 1, ⟨0, 0⟩⟩, ⟨.label "f$A", ⟨0, 13⟩⟩, ⟨.call "f" 0 "f$ret.0", ⟨0, 21⟩⟩,
          ⟨.ifGoto "f$A", ⟨0, 31⟩⟩, ⟨.call "g" 2 "f$ret.1", ⟨0, 41⟩⟩] ∧
      printed [.function "f" 1, .label "f$A", .call "f" 0 "f$ret.0", .ifGoto "f$A",
          .call "g" 2 "f$ret.1"] = "function f 1\nlabel A\ncall f 0\nif-goto A\ncall g 2" ∧
      readUnit "function f 1\nlabel A\ncall f 0\nif-goto A\ncall g 2" "Other" =
        .ok [⟨.function "f" 1, ⟨0, 0⟩⟩, ⟨.label "f$A", ⟨1, 0⟩⟩, ⟨.call "f" 0 "f$ret.0", ⟨2, 0⟩⟩,
          ⟨.ifGoto "f$A", ⟨3, 0⟩⟩, ⟨.call "g" 2 "f$ret.1", ⟨4, 0⟩⟩] := by
  have hread : readUnit "function f 1 label A call f 00 if-goto A call g 2 // done" "Main" =
      .ok [⟨.function "f" 1, ⟨0, 0⟩⟩, ⟨.label "f$A", ⟨0, 13⟩⟩, ⟨.call "f" 0 "f$ret.0", ⟨0, 21⟩⟩,
        ⟨.ifGoto "f$A", ⟨0, 31⟩⟩, ⟨.call "g" 2 "f$ret.1", ⟨0, 41⟩⟩] := by cbv
  have hprinted : printed [.function "f" 1, .label "f$A", .call "f" 0 "f$ret.0", .ifGoto "f$A",
      .call "g" 2 "f$ret.1"] = "function f 1\nlabel A\ncall f 0\nif-goto A\ncall g 2" := by cbv
  refine ⟨hread, hprinted, ?_⟩
  rw [← hprinted]
  exact readUnit_printed hread "Other"

end HackVm
