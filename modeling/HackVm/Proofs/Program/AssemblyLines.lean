import HackVm.Proofs.Program.LocalLabels
import HackVm.Proofs.Program.Output

set_option autoImplicit false

/-! # Lines of assembly

Each line of a translated program has one of the forms that assembly is written in, with one
reservation: numbers. A command can carry numbers up to `Memory.maxIndex`, but a number that is
loaded has to be below `2 ^ 15`. `forall_isAssemblyLine_iff` says that the text of a program is
assembly up to the larger limit, and that it is assembly just if no command makes its code load a
number that is too large. -/

namespace HackVm

open Text

/-! ## Forms of lines -/

/-- What a computation may be stored in. -/
def destinationTexts : List String := ["", "M=", "D=", "MD=", "A=", "AM=", "AD=", "AMD="]

/-- What the machine computes, the inputs of a binary operation in both orders. -/
def computationTexts : List String := [
  "0", "1", "-1", "D", "A", "M", "!D", "!A", "!M", "-D", "-A", "-M",
  "D+1", "A+1", "M+1", "D-1", "A-1", "M-1", "D-A", "D-M", "A-D", "M-D",
  "D+A", "D+M", "D&A", "D&M", "D|A", "D|M", "A+D", "M+D", "A&D", "M&D", "A|D", "M|D"]

/-- When a jump is taken. -/
def jumpTexts : List String := ["", ";JGT", ";JEQ", ";JGE", ";JLT", ";JNE", ";JLE", ";JMP"]

/-- The lines of assembly that load numbers below a limit only. -/
inductive IsAssemblyLine (limit : Nat) : String → Prop
  | blank : IsAssemblyLine limit ""
  | comment {s : String} (oneLine : IsOneLine s) : IsAssemblyLine limit ("//" ++ s)
  | label {name : String} (symbol : IsSymbol name) : IsAssemblyLine limit ("(" ++ name ++ ")")
  | symbol {name : String} (symbol : IsSymbol name) : IsAssemblyLine limit ("@" ++ name)
  | number {n : Nat} (fits : n < limit) : IsAssemblyLine limit ("@" ++ toString n)
  | compute {destination computation jump : String} (stores : destination ∈ destinationTexts)
      (computes : computation ∈ computationTexts) (jumps : jump ∈ jumpTexts) :
      IsAssemblyLine limit (destination ++ computation ++ jump)

/-- The lines of a text. -/
def textLines (text : String) : List String := (text.toList.splitOn '\n').map String.ofList

theorem not_isSymbol_toString (n : Nat) : ¬ IsSymbol (toString n) := by
  intro h
  rw [IsSymbol] at h
  cases hlist : (toString n).toList with
  | nil =>
    rw [hlist] at h
    cases h
  | cons c cs =>
    have hdigit : c.isDigit = true := isDigit_of_mem_toString (hlist ▸ List.mem_cons_self)
    rw [hlist, isSymbol, hdigit] at h
    cases h

/-- A character that stands in no part of a computation stands in no computation. -/
theorem not_mem_compute {ch : Char}
    (hall : ∀ s ∈ destinationTexts ++ computationTexts ++ jumpTexts, ch ∉ s.toList)
    {destination computation jump : String} (hdestination : destination ∈ destinationTexts)
    (hcomputation : computation ∈ computationTexts) (hjump : jump ∈ jumpTexts) :
    ch ∉ (destination ++ computation ++ jump).toList := by
  simp only [List.mem_append, or_imp, forall_and] at hall
  rw [String.toList_append, String.toList_append, List.mem_append, List.mem_append, not_or, not_or]
  exact ⟨⟨hall.1.1 _ hdestination, hall.1.2 _ hcomputation⟩, hall.2 _ hjump⟩

/-- A number can be loaded if it is below the limit. -/
theorem isAssemblyLine_number_iff {limit n : Nat} :
    IsAssemblyLine limit ("@" ++ toString n) ↔ n < limit := by
  refine ⟨fun h => ?_, .number⟩
  generalize hs : "@" ++ toString n = s at h
  have hlist := congrArg String.toList hs
  rw [String.toList_append] at hlist
  -- comments and labels begin differently, and neither symbols nor computations look like this
  cases h with
  | blank => cases hlist
  | comment oneLine =>
    rw [String.toList_append] at hlist
    cases hlist
  | label symbol =>
    rw [String.toList_append, String.toList_append] at hlist
    cases hlist
  | symbol symbol =>
    rw [String.toList_append] at hlist
    have hname := String.toList_inj.mp (List.append_cancel_left hlist)
    exact absurd (hname ▸ symbol) (not_isSymbol_toString n)
  | number fits =>
    rw [String.toList_append] at hlist
    rwa [toString_injective (List.append_cancel_left hlist)]
  | compute stores computes jumps =>
    -- no computation begins like a load
    have hload : '@' ∉ (_ ++ _ ++ _ : String).toList :=
      not_mem_compute (by decide) stores computes jumps
    refine absurd ?_ hload
    rw [← hlist]
    exact List.mem_cons_self

/-! ## Lines as they are written -/

theorem Destination.text_mem (t : Destination) : t.text ∈ destinationTexts := by
  obtain ⟨a, m, d⟩ := t
  cases a <;> cases m <;> cases d <;> decide

theorem Computation.text_mem (c : Computation) : c.text ∈ computationTexts := by
  cases c with
  | zero | one | minusOne => decide
  | copy x | not x | neg x | succ x | pred x => cases x <;> decide
  | dWith op y => cases op <;> cases y <;> decide
  | withD x op => cases op <;> cases x <;> decide

theorem Jump.text_mem (j : Jump) : j.text ∈ jumpTexts := by
  cases j <;> decide

/-- The number that a line loads. -/
def Line.number? : Line → Option Int
  | .number n => some n
  | _ => none

/-- The numbers that a code loads, in order. -/
def numbersOf (code : List Line) : List Int := code.filterMap Line.number?

theorem Line.Readable.isAssemblyLine_iff {line : Line} (h : line.Readable) {limit : Nat} :
    IsAssemblyLine limit line.text ↔ ∀ n, line.number? = some n → n < limit := by
  cases line with
  | symbol name => exact iff_of_true (.symbol h) (by rintro n ⟨⟩)
  | compute t c j =>
    exact iff_of_true (.compute t.text_mem c.text_mem j.text_mem) (by rintro n ⟨⟩)
  | label name => exact iff_of_true (.label h) (by rintro n ⟨⟩)
  | number n =>
    obtain ⟨k, rfl⟩ := Int.eq_ofNat_of_zero_le h
    have htext : (Line.number k).text = "@" ++ toString k := rfl
    rw [htext, isAssemblyLine_number_iff]
    simp [Line.number?]

theorem textLines_joinLines {lines : List String} (h : ∀ l ∈ lines, '\n' ∉ l.toList) :
    textLines (Block.joinLines lines) = lines ++ [""] := by
  rw [textLines, splitOn_joinLines h, List.map_append, List.map_map]
  simp [Function.comp_def]

/-- The lines of a text are those of its blocks and an empty one. -/
theorem textLines_text (comments : Bool) {blocks : List Block} (hne : blocks ≠ [])
    (h : ∀ b ∈ blocks, ∀ l ∈ b.lines comments, '\n' ∉ l.toList) :
    textLines (Block.text comments blocks) = blocks.flatMap (Block.lines comments) ++ [""] := by
  rw [Block.text_of_ne_nil comments hne, textLines_joinLines]
  intro l hl
  obtain ⟨b, hb, hl⟩ := List.mem_flatMap.mp hl
  exact h b hb l hl

theorem mem_textLines_iff (comments : Bool) {blocks : List Block}
    (h : ∀ b ∈ blocks, b.Readable) {l : String} :
    l ∈ textLines (Block.text comments blocks) ↔
      l = "" ∨ ∃ b ∈ blocks, l ∈ b.lines comments := by
  cases blocks with
  | nil =>
    have htext : Block.text comments [] = Block.joinLines [""] := by
      simp [Block.text, Block.joinLines]
    rw [htext, textLines_joinLines (by decide)]
    simp
  | cons b bs =>
    have hlines := fun b' hb' => (h b' hb').not_mem_lines comments
    rw [textLines_text comments (List.cons_ne_nil b bs) hlines, List.mem_append, List.mem_flatMap,
      List.mem_singleton, or_comm]

/-! ## Numbers in commands -/

/-- The number that a command makes its code load. -/
def Command.loaded? : Command → Option Int
  | .push .constant n | .push (.based _) n | .pop (.based _) n => some n
  | .function _ n | .call _ n _ => some n
  | _ => none

/-- The number of an instruction is not larger than an instruction can carry. -/
def Instruction.Bounded : Instruction → Prop
  | .push _ n | .pop _ n | .function _ n | .call _ n => n ≤ Memory.maxIndex
  | _ => True

theorem Phrase.Spelled.bounded {p : Phrase} (h : p.Spelled) : p.instruction.Bounded := by
  obtain ⟨i, ts⟩ := p
  obtain ⟨operands, -, hoperands⟩ := h
  cases i with
  | push segment n | pop segment n | function name n | call name n =>
    obtain ⟨numeral, hnumeral, -⟩ := hoperands
    exact hnumeral.bound
  | _ => trivial

theorem loaded_le_of_resolve {i : Instruction} {scope scope' : Option Scope} {c : Command}
    (h : i.resolve scope = .ok (c, scope')) (bounded : i.Bounded) {n : Int}
    (hn : c.loaded? = some n) : n ≤ Memory.maxIndex := by
  cases i with
  | push segment k =>
    cases h
    cases segment with
    | based base | constant =>
      obtain rfl := Option.some.inj hn
      exact Int.ofNat_le.mpr bounded
    | _ => cases hn
  | pop segment k =>
    cases h
    cases segment with
    | based base =>
      obtain rfl := Option.some.inj hn
      exact Int.ofNat_le.mpr bounded
    | _ => cases hn
  | function name k =>
    cases h
    obtain rfl := Option.some.inj hn
    exact Int.ofNat_le.mpr bounded
  | call callee k =>
    cases scope <;> cases h
    obtain rfl := Option.some.inj hn
    exact Int.ofNat_le.mpr bounded
  | arithmetic op | label name | goto name | ifGoto name | ret =>
    cases scope <;> cases h <;> cases hn

theorem Resolves.loaded_le {scope : Option Scope} {phrases : List Phrase}
    {statements : List Statement} (h : Resolves scope phrases statements)
    (bounded : ∀ p ∈ phrases, p.instruction.Bounded) :
    ∀ s ∈ statements, ∀ n, s.command.loaded? = some n → n ≤ Memory.maxIndex := by
  induction h with
  | nil scope => exact List.forall_mem_nil _
  | cons resolved position others ih =>
    refine List.forall_mem_cons.mpr ⟨fun n => ?_, ih fun q hq => ?_⟩
    · exact loaded_le_of_resolve resolved (bounded _ List.mem_cons_self)
    · exact bounded q (List.mem_cons_of_mem _ hq)

/-- Commands that are read load no number that an instruction cannot carry. -/
theorem loaded_le_of_readUnit {source unit : String} {statements : List Statement}
    (h : readUnit source unit = .ok statements) :
    ∀ s ∈ statements, ∀ n, s.command.loaded? = some n → n ≤ Memory.maxIndex := by
  obtain ⟨hfailure, rfl⟩ := readUnit_eq_ok_iff.mp h
  obtain ⟨phrases, -, hspelled, hresolves, -⟩ :=
    Reader.phrases_of_readAll (genuine_ofString source unit) hfailure
  exact hresolves.loaded_le fun p hp => (hspelled p hp).bounded

/-! ## Numbers in code -/

/-- Code for a cell with a symbol loads no number. -/
theorem numbersOf_cell {ε ε' : Type} {f : String → List Line} {e : ε → ε'} {r : Except ε String}
    {body : List Line} (hf : ∀ symbol, numbersOf (f symbol) = [])
    (h : f <$> r.mapError e = .ok body) : numbersOf body = [] := by
  obtain ⟨symbol, -, rfl⟩ := exists_of_map_mapError h
  exact hf symbol

/-- The code of a command loads the number of the command and the size of a frame, if any. -/
theorem numbersOf_of_lower {g g' : Generator} {c : Command} {body : List Line}
    (h : g.lower c = .ok (body, g')) :
    (∀ n, c.loaded? = some n → n ∈ numbersOf body) ∧
      ∀ n ∈ numbersOf body, c.loaded? = some n ∨ n = Memory.frameSize := by
  have hnone : c.loaded? = none → numbersOf body = [] →
      (∀ n, c.loaded? = some n → n ∈ numbersOf body) ∧
        ∀ n ∈ numbersOf body, c.loaded? = some n ∨ n = Memory.frameSize := by
    intro hloaded hnumbers
    rw [hloaded, hnumbers]
    exact ⟨fun n hn => (by cases hn), fun n hn => (by cases hn)⟩
  have hone : ∀ k, c.loaded? = some k → numbersOf body = [k] →
      (∀ n, c.loaded? = some n → n ∈ numbersOf body) ∧
        ∀ n ∈ numbersOf body, c.loaded? = some n ∨ n = Memory.frameSize := by
    intro k hloaded hnumbers
    rw [hloaded, hnumbers]
    simp
  -- calls and returns load the size of a frame beside what the command says
  cases c with
  | arithmetic op => cases op <;> cases h <;> exact hnone rfl rfl
  | push segment n =>
    have hpush := (Generator.eq_of_map_eq_ok h).1
    cases segment with
    | based base | constant =>
      cases hpush
      exact hone n rfl rfl
    | static =>
      cases hpush
      exact hnone rfl rfl
    | pointer | temp => exact hnone rfl (numbersOf_cell (fun _ => rfl) hpush)
  | pop segment n =>
    have hpop := (Generator.eq_of_map_eq_ok h).1
    cases segment with
    | based base =>
      cases hpop
      exact hone n rfl rfl
    | constant => cases hpop
    | static =>
      cases hpop
      exact hnone rfl rfl
    | pointer | temp => exact hnone rfl (numbersOf_cell (fun _ => rfl) hpop)
  | function name n =>
    cases h
    exact hone n rfl rfl
  | call callee n back =>
    cases h
    have hnumbers : numbersOf (Sequence.call callee n back) = [↑Memory.frameSize, n] := rfl
    rw [hnumbers]
    simp [Command.loaded?, or_comm]
  | ret =>
    cases h
    have hnumbers : numbersOf Sequence.ret = [↑Memory.frameSize] := rfl
    rw [hnumbers]
    simp [Command.loaded?]
  | label name | goto name | ifGoto name =>
    cases h
    exact hnone rfl rfl

/-! ## Programs -/

/-- The lines of a block are assembly just if its numbers are below the limit. -/
theorem Block.Readable.isAssemblyLine_iff {b : Block} (h : b.Readable) (header : IsOneLine b.header)
    (comments : Bool) {limit : Nat} :
    (∀ l ∈ b.lines comments, IsAssemblyLine limit l) ↔ ∀ n ∈ numbersOf b.body, n < limit := by
  have hheader : ∀ l ∈ (if comments then ["// " ++ b.header] else []), IsAssemblyLine limit l := by
    have hcomment : IsAssemblyLine limit ("// " ++ b.header) := by
      have hsplit : "// " ++ b.header = "//" ++ (" " ++ b.header) := by
        rw [← String.append_assoc]
        rfl
      rw [hsplit]
      exact .comment (isOneLine_append.mpr ⟨by decide, header⟩)
    cases comments with
    | false => exact List.forall_mem_nil _
    | true => exact List.forall_mem_singleton.mpr hcomment
  have hbody : (∀ l ∈ b.body.map Line.text, IsAssemblyLine limit l) ↔
      ∀ n ∈ numbersOf b.body, n < limit := by
    simp only [List.forall_mem_map, numbersOf, List.mem_filterMap, forall_exists_index, and_imp]
    constructor
    · exact fun hlines n line hline hn => (h.body line hline).isAssemblyLine_iff.mp
        (hlines line hline) n hn
    · exact fun hnumbers line hline => (h.body line hline).isAssemblyLine_iff.mpr
        fun n => hnumbers n line hline
  -- what stands above the body and behind it has no numbers
  rw [Block.lines, List.forall_mem_append, List.forall_mem_append, List.forall_mem_singleton, hbody]
  exact ⟨fun hall => hall.1.2, fun hnumbers => ⟨⟨hheader, hnumbers⟩, .blank⟩⟩

namespace IsProgramCode

variable {scope : StaticScope} {units : List (String × String)} {parts : List (List Coded)}

theorem map_command (h : IsProgramCode scope units parts) :
    parts.flatten.map Coded.command = units.flatMap fun u => commandsIn u.1 u.2 := by
  induction h with
  | nil => rfl
  | cons hunit hothers ih =>
    rw [List.flatten_cons, List.map_append, hunit.commands, ih, List.flatMap_cons]

theorem mem_commandsIn_iff (h : IsProgramCode scope units parts) {P : Command → Prop} :
    (∀ c ∈ parts.flatten, P c.command) ↔ ∀ u ∈ units, ∀ c ∈ commandsIn u.1 u.2, P c := by
  rw [← List.forall_mem_map, h.map_command, List.forall_mem_flatMap]

theorem loaded_le (h : IsProgramCode scope units parts) :
    ∀ u ∈ units, ∀ c ∈ commandsIn u.1 u.2, ∀ n, c.loaded? = some n → n ≤ Memory.maxIndex := by
  induction h with
  | nil => exact List.forall_mem_nil _
  | cons hunit hothers ih =>
    refine List.forall_mem_cons.mpr ⟨?_, ih⟩
    obtain ⟨statements, hread, -⟩ := hunit
    rw [commandsIn_of_readUnit hread, List.forall_mem_map]
    exact loaded_le_of_readUnit hread

/-- The blocks of a program can be read, and the commands above them are written on one line. -/
theorem readable_blocks (h : IsProgramCode scope units parts) (hunits : ∀ u ∈ units, IsSymbol u.1)
    {entry : String} {bootstrap : Bool} (hentry : bootstrap = true → IsSymbol entry) :
    ∀ b ∈ startBlocks entry bootstrap ++ parts.flatten.map Coded.block,
      b.Readable ∧ IsOneLine b.header := by
  rw [List.forall_mem_append, List.forall_mem_map]
  constructor
  · cases bootstrap with
    | false => exact List.forall_mem_nil _
    | true =>
      have hsymbol := hentry rfl
      exact List.forall_mem_singleton.mpr
        ⟨Bootstrap.readable_block hsymbol, Bootstrap.isOneLine_header hsymbol⟩
  · intro c hc
    obtain ⟨hcommand, hblock⟩ := h.readable hunits c hc
    exact ⟨hblock, hcommand.isOneLine_text⟩

/-- The code of a program loads numbers below a limit just if its commands do. -/
theorem forall_numbersOf_iff (h : IsProgramCode scope units parts) {entry : String}
    {bootstrap : Bool} {limit : Nat} (hlimit : Memory.stackBase < limit) :
    (∀ b ∈ startBlocks entry bootstrap ++ parts.flatten.map Coded.block,
      ∀ n ∈ numbersOf b.body, n < limit) ↔
      ∀ u ∈ units, ∀ c ∈ commandsIn u.1 u.2, ∀ n, c.loaded? = some n → n < limit := by
  have hbase : (256 : Int) < limit := Int.ofNat_lt.mpr hlimit
  have hframe : (Memory.frameSize : Int) = 5 := rfl
  have hstart : ∀ b ∈ startBlocks entry bootstrap, ∀ n ∈ numbersOf b.body, n < limit := by
    cases bootstrap with
    | false => exact List.forall_mem_nil _
    | true =>
      have hnumbers : numbersOf (Bootstrap.block entry).body = [256, 5, 0] := rfl
      refine List.forall_mem_singleton.mpr ?_
      rw [hnumbers]
      simp only [List.forall_mem_cons, List.not_mem_nil, false_implies, implies_true, and_true]
      omega
  rw [← h.mem_commandsIn_iff, List.forall_mem_append, List.forall_mem_map, and_iff_right hstart]
  refine forall₂_congr fun c hc => ?_
  obtain ⟨g, g', -, -, -, hlower, -⟩ := h.exists_of_mem c hc
  obtain ⟨hloads, hloaded⟩ := numbersOf_of_lower hlower
  constructor
  · exact fun hnumbers n hn => hnumbers n (hloads n hn)
  · intro hcommand n hn
    rcases hloaded n hn with hn | rfl
    · exact hcommand n hn
    · omega

/-- The text of a program is assembly up to a limit just if its commands load no larger numbers. -/
theorem forall_isAssemblyLine (h : IsProgramCode scope units parts)
    (hunits : ∀ u ∈ units, IsSymbol u.1) (comments : Bool) {entry : String} {bootstrap : Bool}
    (hentry : bootstrap = true → IsSymbol entry) {limit : Nat} (hlimit : Memory.stackBase < limit) :
    (∀ l ∈ textLines (Block.text comments
        (startBlocks entry bootstrap ++ parts.flatten.map Coded.block)),
      IsAssemblyLine limit l) ↔
      ∀ u ∈ units, ∀ c ∈ commandsIn u.1 u.2, ∀ n, c.loaded? = some n → n < limit := by
  have hblocks := @readable_blocks _ _ _ h hunits _ _ hentry
  rw [← @forall_numbersOf_iff _ _ _ h entry bootstrap _ hlimit]
  constructor
  · intro hlines b hb
    refine ((hblocks b hb).1.isAssemblyLine_iff (hblocks b hb).2 comments).mp fun l hl => ?_
    refine hlines l ((mem_textLines_iff comments fun b hb => (hblocks b hb).1).mpr ?_)
    exact .inr ⟨b, hb, hl⟩
  · intro hnumbers l hl
    rcases (mem_textLines_iff comments fun b hb => (hblocks b hb).1).mp hl with rfl | ⟨b, hb, hl⟩
    · exact .blank
    · exact ((hblocks b hb).1.isAssemblyLine_iff (hblocks b hb).2 comments).mpr (hnumbers b hb) l hl

end IsProgramCode

/-- Each line of the text of a program, whose units are named by symbols, is a line of assembly
with a number up to the largest that a command can carry. All lines are assembly for the machine
just if no command loads a number from `2 ^ 15` on. -/
theorem forall_isAssemblyLine_iff {settings : Settings} {units : List (String × String)}
    {bootstrap : Bool} {text : String} (hunits : ∀ u ∈ units, IsSymbol u.1)
    (h : (translateUnits settings units bootstrap).result = .ok text) :
    (∀ l ∈ textLines text, IsAssemblyLine (Memory.maxIndex + 1) l) ∧
      ((∀ l ∈ textLines text, IsAssemblyLine (2 ^ 15) l) ↔
        ∀ u ∈ units, ∀ c ∈ commandsIn u.1 u.2, ∀ n, c.loaded? = some n → n < 2 ^ 15) := by
  obtain ⟨scope, parts, -, hparts, hentry, rfl⟩ := translateUnits_eq_ok_iff.mp h
  have hsymbol : bootstrap = true → IsSymbol settings.entry.text := by
    intro hbootstrap
    obtain ⟨name, hname, hdeclared⟩ := hentry hbootstrap
    rw [hname]
    exact (hparts.isName_of_mem hdeclared).isSymbol
  constructor
  · rw [hparts.forall_isAssemblyLine hunits _ hsymbol (by decide)]
    exact fun u hu c hc n hn => Int.lt_add_one_of_le (hparts.loaded_le u hu c hc n hn)
  · exact_mod_cast hparts.forall_isAssemblyLine hunits _ hsymbol (by decide)

/-- A program that pushes the largest number that can be loaded. -/
def largestConstant : String := "function Main.main 0 push constant 32767"

theorem forall_isAssemblyLine_largestConstant :
    ∃ text, (translateUnits {} [("Main", largestConstant)] false).result = .ok text ∧
      ∀ l ∈ textLines text, IsAssemblyLine (2 ^ 15) l := by
  have hread : readUnit largestConstant "Main" = .ok
      [⟨.function "Main.main" 0, ⟨0, 0⟩⟩, ⟨.push .constant 32767, ⟨0, 21⟩⟩] := by cbv
  obtain ⟨codes, -, hresult, -⟩ := exists_program_of_readUnit hread rfl
  refine ⟨_, hresult, (forall_isAssemblyLine_iff (by decide) hresult).2.mpr ?_⟩
  rw [List.forall_mem_singleton, commandsIn_of_readUnit hread]
  decide

/-- The code of a program that pushes a number that cannot be loaded. -/
def excessCode : List Coded := [⟨"Main", .push .constant 32768, Sequence.pushConstant 32768⟩]

/-- The program is translated, and a line of it is not assembly. -/
theorem not_isAssemblyLine_excess :
    IsSymbol "Main" ∧ ∃ text,
      (translateUnits {} [("Main", "push constant 32768")] false).result = .ok text ∧
        "@32768" ∈ textLines text ∧ ¬ IsAssemblyLine (2 ^ 15) "@32768" := by
  have hread : readUnit "push constant 32768" "Main" =
      .ok [⟨.push .constant 32768, ⟨0, 0⟩⟩] := by cbv
  have hcodes : IsUnitCode .unit "Main" "push constant 32768" excessCode :=
    ⟨_, hread, rfl, .cons rfl rfl (.nil _)⟩
  obtain ⟨hparts, hresult⟩ := hcodes.program
  have hblocks := @IsProgramCode.readable_blocks _ _ _ hparts (by decide) "" false (by simp)
  have hline : "@32768" = "@" ++ toString 32768 := by decide
  refine ⟨by decide, _, hresult, ?_, ?_⟩
  · refine (mem_textLines_iff true fun b hb => (hblocks b hb).1).mpr
      (.inr ⟨_, List.mem_singleton_self _, ?_⟩)
    decide
  · rw [hline, isAssemblyLine_number_iff]
    decide

end HackVm
