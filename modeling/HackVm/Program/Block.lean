import HackVm.Machine.Assembly

set_option autoImplicit false

/-! # Assembly text

A translated program is a row of blocks, one for each command. A block is written as its lines
and an empty line behind them; if comments are wanted, the command it comes from stands above
them. Each line of the text ends in a line feed (`text_of_ne_nil`), so the text of a program is
the texts of its parts in a row (`text_append`); a program without blocks is one empty line. -/

namespace HackVm

/-- The code of one command. -/
structure Block where
  header : String
  body : List Line
  deriving DecidableEq, Repr

namespace Block

/-- The lines of a block, the empty one behind it included. -/
def lines (comments : Bool) (b : Block) : List String :=
  (if comments then ["// " ++ b.header] else []) ++ b.body.map Line.text ++ [""]

/-- The text of a program. -/
def text (comments : Bool) (blocks : List Block) : String :=
  "\n".intercalate (blocks.flatMap (lines comments)) ++ "\n"

/-- Lines with a line feed behind each. -/
def joinLines (lines : List String) : String :=
  String.join (lines.map (· ++ "\n"))

/-- The symbols that the blocks of a program define, in order. -/
def labels (blocks : List Block) : List String :=
  blocks.flatMap fun b => b.body.filterMap Line.defines?

/-! ## Texts in a row -/

theorem joinLines_append (xs ys : List String) :
    joinLines (xs ++ ys) = joinLines xs ++ joinLines ys := by
  simp [joinLines, String.join_append]

/-- Writing separators between lines and one behind the last is writing one behind each. -/
theorem intercalate_append_line_feed {lines : List String} (h : lines ≠ []) :
    "\n".intercalate lines ++ "\n" = joinLines lines := by
  induction lines with
  | nil => exact absurd rfl h
  | cons line rest ih =>
    cases rest with
    | nil => simp [joinLines]
    | cons next rest =>
      rw [String.intercalate_cons_cons, String.append_assoc, ih (List.cons_ne_nil _ _)]
      simp [joinLines, String.append_assoc]

/-- The text of a program with blocks is its lines, each ended by a line feed. -/
theorem text_of_ne_nil (comments : Bool) {blocks : List Block} (h : blocks ≠ []) :
    text comments blocks = joinLines (blocks.flatMap (lines comments)) := by
  refine intercalate_append_line_feed ?_
  obtain ⟨b, rest, rfl⟩ := List.exists_cons_of_ne_nil h
  simp [lines]

/-- Programs with blocks are written one behind the other. -/
theorem text_append (comments : Bool) {bs cs : List Block} (hb : bs ≠ []) (hc : cs ≠ []) :
    text comments (bs ++ cs) = text comments bs ++ text comments cs := by
  have hbc : bs ++ cs ≠ [] := by simp [hb]
  rw [text_of_ne_nil _ hb, text_of_ne_nil _ hc, text_of_ne_nil _ hbc, List.flatMap_append,
    joinLines_append]

end Block

end HackVm
