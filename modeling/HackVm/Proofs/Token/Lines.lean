import HackVm.Proofs.Token.Shape
import HackVm.Proofs.Token.Cut

set_option autoImplicit false

/-! # Texts are read line by line

A line feed ends whatever stands before it: it is no part of a number or a name, it ends a
comment, and a slash before it begins none. So what a line is cut into does not depend on the lines
below it. A cut of the lines above and a cut of the lines below make one of the whole text
(`Cut.Valid.above`), whose tokens are those of the first and, so many lines further down, those of
the second (`tokenize_append_line`). -/

namespace HackVm

open Text

/-! ## Places further down -/

namespace Text.Position

/-- The place in the same column, `n` lines further down. -/
def down (p : Position) (n : Nat) : Position := ⟨p.line + n, p.column⟩

theorem next_down (p : Position) (n : Nat) (c : Char) : (p.down n).next c = (p.next c).down n := by
  unfold next
  split
  · simp only [down, Nat.add_right_comm]
  · rfl

/-- Reading on from further down leads so much further down. -/
theorem after_down (p : Position) (n : Nat) (cs : List Char) :
    (p.down n).after cs = (p.after cs).down n := by
  induction cs generalizing p with
  | nil => rfl
  | cons c cs ih => rw [after_cons, after_cons, next_down, ih]

/-- A line feed leads to the start of the next line. -/
theorem after_line_feed (cs : List Char) :
    start.after (cs ++ ['\n']) = start.down (cs.count '\n' + 1) := by
  have hline : (start.after cs).line = cs.count '\n' := by
    rw [line_after]
    exact Nat.zero_add _
  rw [after_append, after_cons, after_nil, next, if_pos rfl, hline, down]
  simp only [start, Nat.zero_add]

end Text.Position

/-- The same token `n` lines further down. -/
def Token.down (n : Nat) (t : Token) : Token := { t with position := t.position.down n }

theorem tokensFrom_down (start : Position) (n : Nat) (ps : List Piece) :
    tokensFrom (start.down n) ps = (tokensFrom start ps).map (Token.down n) := by
  induction ps generalizing start with
  | nil => rfl
  | cons p ps ih =>
    rw [tokensFrom, tokensFrom, List.map_cons, Position.after_down, Position.after_down, ih]
    rfl

theorem Cut.dropLast_tokens (cut : Cut) (start : Position) :
    (cut.tokens start).dropLast = tokensFrom start cut.pieces := by
  rw [Cut.tokens, List.dropLast_concat]

theorem Cut.tokens_down (cut : Cut) (start : Position) (n : Nat) :
    cut.tokens (start.down n) = (cut.tokens start).map (Token.down n) := by
  rw [Cut.tokens, Cut.tokens, List.map_append, tokensFrom_down, Position.after_down]
  rfl

/-! ## A line feed behind a text -/

/-- What stands in a line does not go on in the next. -/
theorem closesLike_append_line (rest below : List Char) :
    ClosesLike (rest ++ '\n' :: below) rest := by
  cases rest with
  | nil =>
    intro c hc
    cases hc
    exact .inr (by decide)
  | cons d ds => exact fun c hc => .inl hc

/-- The last gap of a line, the line feed and the first gap of the next line are one gap. -/
theorem IsGap.append_gap {last gap rest : List Char} (h : IsGap last []) (hgap : IsGap gap rest) :
    IsGap (last ++ '\n' :: gap) rest := by
  generalize hnil : ([] : List Char) = behind at h
  induction h with
  | nil behind => exact .blank (by decide) hgap
  | blank blank others ih => exact .blank blank (ih hnil)
  | @comment body last behind body_inside maximal others ih =>
    subst hnil
    rw [List.append_nil] at maximal
    have hall : '/' :: '/' :: (body ++ last) ++ '\n' :: gap =
        '/' :: '/' :: (body ++ (last ++ '\n' :: gap)) := by
      simp only [List.cons_append, List.append_assoc]
    rw [hall]
    refine .comment body_inside ?_ (ih rfl)
    rw [List.append_assoc, List.cons_append]
    exact (closesLike_append_line last _).forall_head? maximal fun _ => id

/-! ## Cuts of lines -/

/-- A piece behind the further characters `front`. -/
def Piece.behind (front : List Char) (p : Piece) : Piece := { p with gap := front ++ p.gap }

theorem tokensFrom_behind (start : Position) (front : List Char) (p : Piece) (ps : List Piece) :
    tokensFrom start (p.behind front :: ps) = tokensFrom (start.after front) (p :: ps) := by
  simp only [tokensFrom, Piece.behind, Piece.chars, Position.after_append]

namespace Cut

/-- The cut of a text with another one in the lines below it. -/
def above (upper lower : Cut) : Cut :=
  match lower.pieces with
  | [] => ⟨upper.pieces, upper.last ++ '\n' :: lower.last⟩
  | p :: ps => ⟨upper.pieces ++ p.behind (upper.last ++ ['\n']) :: ps, lower.last⟩

theorem source_above (upper lower : Cut) :
    (upper.above lower).source = upper.source ++ '\n' :: lower.source := by
  obtain ⟨pieces, last⟩ := lower
  cases pieces with
  | nil => simp [above, source]
  | cons p ps => simp [above, source, charsOf_append, Piece.behind, Piece.chars]

theorem Valid.above {upper lower : Cut} (hupper : upper.Valid) (hlower : lower.Valid) :
    (upper.above lower).Valid := by
  obtain ⟨pieces, last⟩ := lower
  obtain ⟨hpieces, hlast⟩ := hlower
  cases pieces with
  | nil =>
    exact ⟨hupper.pieces.of_closesLike (closesLike_append_line _ _), hupper.last.append_gap hlast⟩
  | cons p ps =>
    obtain ⟨⟨hgap, htext⟩, hps⟩ := hpieces
    refine ⟨fitBefore_append.mpr ⟨?_, ⟨?_, htext⟩, hps⟩, hlast⟩
    · have hchars : charsOf (p.behind (upper.last ++ ['\n']) :: ps) ++ last =
          upper.last ++ '\n' :: (charsOf (p :: ps) ++ last) := by
        simp [Piece.behind, Piece.chars]
      show FitBefore (charsOf (p.behind (upper.last ++ ['\n']) :: ps) ++ last) upper.pieces
      rw [hchars]
      exact hupper.pieces.of_closesLike (closesLike_append_line _ _)
    · have hfront : upper.last ++ ['\n'] ++ p.gap = upper.last ++ '\n' :: p.gap := by simp
      rw [Piece.behind, hfront]
      exact hupper.last.append_gap hgap

/-- The tokens of the lines above, and behind them those of the lines below. -/
theorem tokens_above (upper lower : Cut) (start : Position) :
    (upper.above lower).tokens start =
      tokensFrom start upper.pieces ++ lower.tokens (start.after (upper.source ++ ['\n'])) := by
  have hlast : start.after (upper.above lower).source =
      (start.after (upper.source ++ ['\n'])).after lower.source := by
    rw [source_above, ← Position.after_append, List.append_assoc, List.singleton_append]
  rw [tokens, tokens, hlast, ← List.append_assoc]
  congr 1
  obtain ⟨pieces, last⟩ := lower
  cases pieces with
  | nil => simp [above, tokensFrom]
  | cons p ps =>
    rw [above, tokensFrom_append, tokensFrom_behind, ← Position.after_append, source,
      List.append_assoc]

end Cut

/-- A text with lines below it is read as if it stood alone, up to the token for its end, and the
lines below it are read as if they stood alone, so many lines further down as the text has line
feeds and one for the line feed between them. -/
theorem tokenize_append_line (upper lower : String) :
    tokenize (upper ++ "\n" ++ lower) =
      (tokenize upper).filter (fun t => decide (t.kind ≠ .endOfText)) ++
        (tokenize lower).map (Token.down (upper.toList.count '\n' + 1)) := by
  obtain ⟨cut, hcut, hvalid⟩ := exists_cut upper.toList
  obtain ⟨cut', hcut', hvalid'⟩ := exists_cut lower.toList
  have hsource : (cut.above cut').source = (upper ++ "\n" ++ lower).toList := by
    rw [Cut.source_above, hcut, hcut']
    simp
  have hlower : Position.start.after (cut.source ++ ['\n']) =
      Position.start.down (upper.toList.count '\n' + 1) := by
    rw [Position.after_line_feed, hcut]
  rw [(hvalid.above hvalid').tokenize_eq hsource, Cut.tokens_above, hlower, Cut.tokens_down,
    hvalid'.tokenize_eq hcut', filter_tokenize, hvalid.tokenize_eq hcut, Cut.dropLast_tokens]

end HackVm
