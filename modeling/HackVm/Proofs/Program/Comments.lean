import HackVm.Proofs.Program.Start

set_option autoImplicit false

/-! # Programs with and without comments

Whether comments are wanted is asked last, when the blocks of a program are written
(`translateUnits_eq_map`), so it changes neither the notices nor the error of a translation. The
comments stand on lines of their own, and no line of code begins like one
(`isComment_text`). As long as no header has a line feed in it, which headers have only from the
name of a unit, the text without comments is the text with them less those lines
(`withoutComments_text`). -/

namespace HackVm

/-! ## Lines that are comments -/

def isComment (line : String) : Bool := ['/', '/'].isPrefixOf line.toList

/-- A text without the lines that begin with two slashes. -/
def withoutComments (text : String) : String :=
  "\n".intercalate ((textLines text).filter fun line => !isComment line)

/-- No line of code is a comment, whatever the symbols in it. -/
theorem isComment_text (line : Line) : isComment line.text = false := by
  cases line with
  | symbol name => simp [isComment, Line.text, List.isPrefixOf]
  | number n => simp [isComment, Line.text, List.isPrefixOf]
  | label name => simp [isComment, Line.text, List.isPrefixOf]
  | compute t c j =>
    have hslash : '/' ∉ (t.text ++ c.text ++ j.text).toList :=
      not_mem_compute (by decide) t.text_mem c.text_mem j.text_mem
    refine Bool.eq_false_iff.mpr fun hcomment => hslash ?_
    obtain ⟨rest, hrest⟩ := List.isPrefixOf_iff_prefix.mp hcomment
    exact hrest ▸ List.mem_cons_self

theorem isComment_header (header : String) : isComment ("// " ++ header) = true := by
  simp [isComment]

/-- Of the lines of a block those that are no comments are the lines of a block without them. -/
theorem Block.filter_lines (b : Block) :
    (b.lines true).filter (fun line => !isComment line) = b.lines false := by
  have hbody : (b.body.map Line.text).filter (fun line => !isComment line) =
      b.body.map Line.text := by
    rw [List.filter_eq_self, List.forall_mem_map]
    exact fun line _ => by rw [isComment_text]; rfl
  have hempty : isComment "" = false := rfl
  simp [Block.lines, List.filter_append, hbody, isComment_header, hempty]

theorem intercalate_append_empty (lines : List String) :
    "\n".intercalate (lines ++ [""]) = Block.joinLines lines := by
  induction lines with
  | nil => rfl
  | cons line lines ih =>
    have hne : lines ++ [""] ≠ [] := by simp
    obtain ⟨next, rest, hrest⟩ := List.exists_cons_of_ne_nil hne
    rw [List.cons_append, hrest, String.intercalate_cons_cons, ← hrest, ih]
    simp [Block.joinLines, String.append_assoc]

theorem withoutComments_text {blocks : List Block}
    (h : ∀ b ∈ blocks, ∀ l ∈ b.lines true, '\n' ∉ l.toList) :
    withoutComments (Block.text true blocks) = Block.text false blocks := by
  by_cases hne : blocks = []
  · subst hne
    rfl
  · have hlines : (blocks.flatMap (Block.lines true)).filter (fun line => !isComment line) =
        blocks.flatMap (Block.lines false) := by
      rw [List.filter_flatMap]
      exact List.flatMap_congr fun b _ => b.filter_lines
    have hempty : [""].filter (fun line => !isComment line) = [""] := rfl
    rw [withoutComments, textLines_text true hne h, List.filter_append, hlines, hempty,
      intercalate_append_empty, Block.text_of_ne_nil false hne]

/-! ## Translations -/

/-- The blocks of a program. -/
def programBlocks (staticScope entry : Setting) (units : List (String × String))
    (bootstrap : Bool) : Report ProgramError (List Block) := do
  let scope ← Report.ofExcept (StaticScope.ofSetting staticScope)
  if bootstrap then
    Report.progress ("Bootstrap: SP=" ++ toString Memory.stackBase ++ ", call " ++ entry.text)
  let (blocks, owners) ← translateEach scope [] units
  if bootstrap then
    Report.ofExcept (owners.checkEntry entry)
  return startBlocks entry.text bootstrap ++ blocks

/-- A program is translated to its blocks, and these are written. -/
theorem translateUnits_eq_map (settings : Settings) (units : List (String × String))
    (bootstrap : Bool) : translateUnits settings units bootstrap =
      Block.text settings.comments <$>
        programBlocks settings.staticScope settings.entry units bootstrap := by
  unfold translateUnits programBlocks startBlocks
  cases bootstrap with
  | false => simp only [Bool.false_eq_true, if_false, map_bind, map_pure]
  | true => simp only [if_true, map_bind, map_pure]

namespace Report

variable {ε α β : Type}

theorem notices_map (f : α → β) (r : Report ε α) : (f <$> r).notices = r.notices := by
  obtain ⟨notices, result⟩ := r
  cases result with
  | ok a => exact List.append_nil notices
  | error e => rfl

theorem result_map (f : α → β) (r : Report ε α) : (f <$> r).result = r.result.map f := by
  obtain ⟨notices, result⟩ := r
  cases result <;> rfl

end Report

/-- No line feed stands in the lines of a program, except from the names of its units. -/
theorem newline_not_mem_programLines {scope : StaticScope} {units : List (String × String)}
    {parts : List (List Coded)} (h : IsProgramCode scope units parts)
    (hunits : ∀ u ∈ units, '\n' ∉ u.1.toList) {entry : Setting} {bootstrap : Bool}
    (hentry : bootstrap = true → ∃ name, entry = .given name ∧
      name ∈ units.flatMap fun u => declaredIn u.1 u.2) (comments : Bool) :
    ∀ b ∈ startBlocks entry.text bootstrap ++ parts.flatten.map Coded.block,
      ∀ l ∈ b.lines comments, '\n' ∉ l.toList := by
  refine List.forall_mem_append.mpr ⟨?_, h.newline_not_mem_lines hunits comments⟩
  cases bootstrap with
  | false => exact List.forall_mem_nil _
  | true =>
    obtain ⟨name, rfl, hname⟩ := hentry rfl
    have hsymbol : IsSymbol name := (h.isName_of_mem hname).isSymbol
    exact List.forall_mem_singleton.mpr ((Bootstrap.readable_block hsymbol).not_mem_lines comments)

/-- Units whose names have no line feed in them are translated with comments as without them: with
the same notices, and to the same error or to texts of which one is the other less the lines that
begin with two slashes. None of these lines is empty or written for an instruction or a label. -/
theorem translateUnits_comments {units : List (String × String)}
    (hunits : ∀ u ∈ units, '\n' ∉ u.1.toList) (settings : Settings) (bootstrap : Bool) :
    let commented := translateUnits { settings with comments := true } units bootstrap
    let plain := translateUnits { settings with comments := false } units bootstrap
    commented.notices = plain.notices ∧
      ((∃ text, commented.result = .ok text ∧ plain.result = .ok (withoutComments text) ∧
          ∀ l ∈ textLines text, isComment l = true → l ≠ "" ∧ ∀ line : Line, l ≠ line.text) ∨
        ∃ e, commented.result = .error e ∧ plain.result = .error e) := by
  intro commented plain
  have hcommented : commented = Block.text true <$>
      programBlocks settings.staticScope settings.entry units bootstrap :=
    translateUnits_eq_map _ units bootstrap
  have hplain : plain = Block.text false <$>
      programBlocks settings.staticScope settings.entry units bootstrap :=
    translateUnits_eq_map _ units bootstrap
  refine ⟨by rw [hcommented, hplain, Report.notices_map, Report.notices_map], ?_⟩
  cases hblocks : (programBlocks settings.staticScope settings.entry units bootstrap).result with
  | error e =>
    refine .inr ⟨e, ?_, ?_⟩
    · rw [hcommented, Report.result_map, hblocks]
      rfl
    · rw [hplain, Report.result_map, hblocks]
      rfl
  | ok blocks =>
    have hresult : commented.result = .ok (Block.text true blocks) := by
      rw [hcommented, Report.result_map, hblocks]
      rfl
    obtain ⟨scope, parts, hscope, hparts, hentry, htext⟩ := translateUnits_eq_ok_iff.mp hresult
    have hresult' : plain.result = .ok (Block.text false
        (startBlocks settings.entry.text bootstrap ++ parts.flatten.map Coded.block)) :=
      translateUnits_eq_ok_iff.mpr ⟨scope, parts, hscope, hparts, hentry, rfl⟩
    refine .inl ⟨_, hresult, ?_, fun l _ hl => ⟨?_, ?_⟩⟩
    · have hlines := newline_not_mem_programLines hparts hunits hentry true
      rw [hresult', htext, ← withoutComments_text hlines]
    · rintro rfl
      cases hl
    · rintro line rfl
      rw [isComment_text] at hl
      cases hl

/-- The text of a unit with one command, its comment and its code. -/
def addText : String := "// add\n@SP\nAM=M-1\nD=M\nA=A-1\nM=M+D\n\n"

theorem translateUnits_comments_add :
    (∀ u ∈ [("Main", "add")], '\n' ∉ u.1.toList) ∧
      (translateUnits {} [("Main", "add")] false).result = .ok addText ∧
      (translateUnits { comments := false } [("Main", "add")] false).result =
        .ok (withoutComments addText) ∧
      (textLines addText).filter isComment = ["// add"] := by
  have hunits : ∀ u ∈ [("Main", "add")], '\n' ∉ u.1.toList := by decide
  have hresult : (translateUnits {} [("Main", "add")] false).result = .ok addText := by cbv
  refine ⟨hunits, hresult, ?_, by decide⟩
  obtain ⟨-, ⟨text, htext, hplain, -⟩ | ⟨e, herror, -⟩⟩ := translateUnits_comments hunits {} false
  · cases hresult.symm.trans htext
    exact hplain
  · cases hresult.symm.trans herror

end HackVm
