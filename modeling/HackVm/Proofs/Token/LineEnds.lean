import HackVm.Program.Translate
import HackVm.Proofs.Token.Places

set_option autoImplicit false

/-! # Lines that end in two characters

Some systems end a line by a carriage return and a line feed. The carriage return does no harm: it
is a blank, it ends a comment one character before the line feed would, and the column that it takes
is forgotten at the line feed. So pairing the line ends of a text changes its gaps and nothing else.
A cut of the text gives one of the paired text (`Cut.Valid.pairLineEnds`), and the tokens of both
are the same in the same places (`tokenize_pairLineEnds`). -/

namespace HackVm

open Text

namespace Text

/-- Puts a carriage return before every line feed. -/
def pairLineEnds (cs : List Char) : List Char :=
  cs.flatMap fun c => if c = '\n' then ['\r', '\n'] else [c]

@[simp] theorem pairLineEnds_nil : pairLineEnds [] = [] := rfl

theorem pairLineEnds_line_feed (cs : List Char) :
    pairLineEnds ('\n' :: cs) = '\r' :: '\n' :: pairLineEnds cs := rfl

theorem pairLineEnds_cons {c : Char} (hc : c ≠ '\n') (cs : List Char) :
    pairLineEnds (c :: cs) = c :: pairLineEnds cs := by
  rw [pairLineEnds, List.flatMap_cons, if_neg hc, List.singleton_append, ← pairLineEnds]

theorem pairLineEnds_append (cs ds : List Char) :
    pairLineEnds (cs ++ ds) = pairLineEnds cs ++ pairLineEnds ds :=
  List.flatMap_append

/-- A single line has no line end in it. -/
theorem pairLineEnds_of_not_mem {cs : List Char} (h : '\n' ∉ cs) : pairLineEnds cs = cs := by
  induction cs with
  | nil => rfl
  | cons c cs ih =>
    rw [List.mem_cons, not_or] at h
    rw [pairLineEnds_cons (Ne.symm h.1), ih h.2]

/-- A carriage return ends what the line feed behind it would end. -/
theorem closesLike_pairLineEnds (cs : List Char) : ClosesLike (pairLineEnds cs) cs := by
  cases cs with
  | nil => exact fun c hc => by cases hc
  | cons d cs =>
    by_cases hfeed : d = '\n'
    · subst hfeed
      rintro c ⟨⟩
      exact .inr (by decide)
    · rw [pairLineEnds_cons hfeed]
      exact fun c hc => .inl hc

/-- The carriage returns in front of line feeds lead nowhere. -/
theorem Position.after_pairLineEnds (p : Position) (cs : List Char) :
    p.after (pairLineEnds cs) = p.after cs := by
  induction cs generalizing p with
  | nil => rfl
  | cons c cs ih =>
    by_cases hfeed : c = '\n'
    · subst hfeed
      have hnext : (p.next '\r').next '\n' = p.next '\n' := rfl
      rw [pairLineEnds_line_feed, after_cons, after_cons, hnext, after_cons, ih]
    · rw [pairLineEnds_cons hfeed, after_cons, after_cons, ih]

end Text

/-! ## Gaps and tokens -/

/-- A token is part of one line. -/
theorem IsLexeme.line_feed_not_mem {kind : TokenKind} {text rest : List Char}
    (h : IsLexeme kind text rest) : '\n' ∉ text := by
  intro hmem
  exact absurd (h.isBlank_eq_false _ hmem) (by decide)

/-- A comment ends at the carriage return of its line. -/
theorem IsGap.pairLineEnds {gap rest : List Char} (h : IsGap gap rest) :
    IsGap (pairLineEnds gap) (pairLineEnds rest) := by
  induction h with
  | nil rest => exact .nil _
  | @blank c gap rest blank others ih =>
    by_cases hfeed : c = '\n'
    · subst hfeed
      exact .blank (by decide) (.blank blank ih)
    · rw [pairLineEnds_cons hfeed]
      exact .blank blank ih
  | @comment body gap rest body_inside maximal others ih =>
    have hbody : '\n' ∉ body := fun hmem => absurd (body_inside _ hmem) (by decide)
    rw [pairLineEnds_cons (by decide), pairLineEnds_cons (by decide), pairLineEnds_append,
      pairLineEnds_of_not_mem hbody]
    refine .comment body_inside ?_ ih
    rw [← pairLineEnds_append]
    exact (closesLike_pairLineEnds _).forall_head? maximal fun _ => id

/-! ## Cuts -/

def Piece.pairLineEnds (p : Piece) : Piece := { p with gap := Text.pairLineEnds p.gap }

def Cut.pairLineEnds (cut : Cut) : Cut :=
  ⟨cut.pieces.map Piece.pairLineEnds, Text.pairLineEnds cut.last⟩

theorem Piece.FitsBefore.chars_pairLineEnds {p : Piece} {rest : List Char} (h : p.FitsBefore rest) :
    p.pairLineEnds.chars = Text.pairLineEnds p.chars := by
  rw [chars, chars, pairLineEnds_append, pairLineEnds_of_not_mem h.text.line_feed_not_mem]
  rfl

theorem FitBefore.charsOf_pairLineEnds {rest : List Char} {ps : List Piece}
    (h : FitBefore rest ps) : charsOf (ps.map Piece.pairLineEnds) = pairLineEnds (charsOf ps) := by
  induction ps with
  | nil => rfl
  | cons p ps ih =>
    obtain ⟨hp, hps⟩ := h
    rw [List.map_cons, charsOf_cons, charsOf_cons, pairLineEnds_append, hp.chars_pairLineEnds,
      ih hps]

theorem FitBefore.pairLineEnds {rest : List Char} {ps : List Piece} (h : FitBefore rest ps) :
    FitBefore (pairLineEnds rest) (ps.map Piece.pairLineEnds) := by
  induction ps with
  | nil => trivial
  | cons p ps ih =>
    obtain ⟨⟨hgap, htext⟩, hps⟩ := h
    have hbehind : charsOf (ps.map Piece.pairLineEnds) ++ Text.pairLineEnds rest =
        Text.pairLineEnds (charsOf ps ++ rest) := by
      rw [pairLineEnds_append, hps.charsOf_pairLineEnds]
    refine ⟨⟨?_, ?_⟩, ih hps⟩
    · have hgap' := hgap.pairLineEnds
      rw [pairLineEnds_append, pairLineEnds_of_not_mem htext.line_feed_not_mem] at hgap'
      rw [hbehind]
      exact hgap'
    · rw [hbehind]
      exact htext.of_closesLike (closesLike_pairLineEnds _)

/-- The tokens of pieces stay where they are. -/
theorem FitBefore.tokensFrom_pairLineEnds {rest : List Char} {ps : List Piece}
    (h : FitBefore rest ps) (start : Position) :
    tokensFrom start (ps.map Piece.pairLineEnds) = tokensFrom start ps := by
  induction ps generalizing start with
  | nil => rfl
  | cons p ps ih =>
    obtain ⟨hp, hps⟩ := h
    rw [List.map_cons, tokensFrom, tokensFrom, hp.chars_pairLineEnds,
      Position.after_pairLineEnds, ih hps, Piece.pairLineEnds, Position.after_pairLineEnds]

namespace Cut.Valid

theorem source_pairLineEnds {cut : Cut} (h : cut.Valid) :
    cut.pairLineEnds.source = Text.pairLineEnds cut.source := by
  rw [Cut.source, Cut.source, pairLineEnds_append, ← h.pieces.charsOf_pairLineEnds]
  rfl

theorem pairLineEnds {cut : Cut} (h : cut.Valid) : cut.pairLineEnds.Valid :=
  ⟨h.pieces.pairLineEnds, h.last.pairLineEnds⟩

theorem tokens_pairLineEnds {cut : Cut} (h : cut.Valid) (start : Position) :
    cut.pairLineEnds.tokens start = cut.tokens start := by
  rw [Cut.tokens, Cut.tokens, h.source_pairLineEnds, Position.after_pairLineEnds]
  congr 1
  exact h.pieces.tokensFrom_pairLineEnds start

end Cut.Valid

/-! ## Texts -/

/-- A reader knows of a text no more than its tokens. -/
theorem Reader.ofString_congr {source source' : String} (h : tokenize source = tokenize source')
    (unit : String) : Reader.ofString source unit = Reader.ofString source' unit := by
  have hlast : (tokenize source).dropLast ++ [⟨.endOfText, "", (ofString source unit).finish⟩] =
      (tokenize source').dropLast ++ [⟨.endOfText, "", (ofString source' unit).finish⟩] := by
    have hsource := (Cursor.ofString source).dropLast_tokens
    have hsource' := (Cursor.ofString source').dropLast_tokens
    exact hsource.symm.trans (h.trans hsource')
  obtain ⟨hpending, hfinish⟩ := List.append_inj' hlast rfl
  obtain ⟨-, -, hposition⟩ := Token.mk.inj (List.singleton_inj.mp hfinish)
  have hreader : ∀ text, ofString text unit =
      ⟨unit, (tokenize text).dropLast, (ofString text unit).finish, none, none, none, []⟩ :=
    fun text => rfl
  rw [hreader source, hreader source', hpending, hposition]

/-- A text whose lines end in a carriage return and a line feed has the tokens of the text whose
lines end in a line feed, all in the same places. So the same commands are read from both, or the
same error is found, and they are translated with the same notices to the same assembly. -/
theorem tokenize_pairLineEnds (source : String) :
    let paired := String.ofList (pairLineEnds source.toList)
    tokenize paired = tokenize source ∧
      ∀ unit, readUnit paired unit = readUnit source unit ∧
        ∀ settings, translateString settings paired unit =
          translateString settings source unit := by
  intro paired
  obtain ⟨cut, hcut, hvalid⟩ := exists_cut source.toList
  have hpaired : cut.pairLineEnds.source = paired.toList := by
    rw [hvalid.source_pairLineEnds, hcut, String.toList_ofList]
  have htokens : tokenize paired = tokenize source := by
    rw [hvalid.pairLineEnds.tokenize_eq hpaired, hvalid.tokens_pairLineEnds,
      hvalid.tokenize_eq hcut]
  refine ⟨htokens, fun unit => ?_⟩
  have hreader := Reader.ofString_congr htokens unit
  refine ⟨?_, fun settings => ?_⟩
  · rw [readUnit, readUnit, hreader]
  · unfold translateString translateUnit
    rw [hreader]

/-- A comment that ends at the carriage return of its line, and a slash in front of another. -/
example : tokenize "push // 1\r\n/\r\n/2" = tokenize "push // 1\n/\n/2" := by cbv

end HackVm
