import HackVm.Proofs.Token.Shape
import HackVm.Proofs.Token.Cut
import Mathlib.Data.List.Induction

set_option autoImplicit false

/-! # Where tokens stand

The place of a token can be told from the text alone: it is as many lines down as there are line
feeds before the token, and as many columns on as there are characters behind the last of them.
What stands before a token is called its front (`IsFront`). A cut that ends before the token is
one of the front (`closesLike_append`), so the tokens of the front are the earlier ones, and
`exists_isFront` finds the front of every token, the one for the end of the text included. -/

namespace HackVm

open Text

/-- The place behind a text, from the text alone. -/
theorem Text.Position.after_start (cs : List Char) :
    start.after cs = ⟨cs.count '\n', (cs.reverse.takeWhile (· != '\n')).length⟩ := by
  induction cs using List.reverseRecOn with
  | nil => rfl
  | append_singleton cs c ih =>
    rw [after_append, ih, after_cons, after_nil, next, List.count_append, List.reverse_append,
      List.reverse_singleton, List.singleton_append]
    by_cases hfeed : c = '\n'
    · simp [hfeed]
    · simp [hfeed]

/-- The characters `front` stand in a text before its token `t`, and hold the tokens `earlier`. -/
structure IsFront (source : String) (earlier : List Token) (t : Token) (front : List Char) :
    Prop where
  tokens : tokenize (String.ofList front) = earlier ++ [⟨.endOfText, "", t.position⟩]
  text : ∃ rest, source.toList = front ++ t.text.toList ++ rest
  line : t.position.line = front.count '\n'
  column : t.position.column = (front.reverse.takeWhile (· != '\n')).length
  whole : t.kind = .endOfText → front = source.toList

/-! ## Texts cut short -/

/-- A text that is cut short ends what stands before it, as the whole text does. -/
theorem closesLike_append (rest more : List Char) : ClosesLike rest (rest ++ more) := by
  cases rest with
  | nil => exact fun c hc => by cases hc
  | cons d ds => exact fun c hc => .inl hc

/-! ## Fronts -/

/-- A token of a row of pieces is that of one of them, and the earlier tokens are those of the
pieces before. -/
theorem exists_piece_of_tokensFrom {start : Position} {ps : List Piece} {earlier later : List Token}
    {t : Token} (h : tokensFrom start ps = earlier ++ t :: later) :
    ∃ before p after, ps = before ++ p :: after ∧ tokensFrom start before = earlier ∧
      t = ⟨p.kind, String.ofList p.text, start.after (charsOf before ++ p.gap)⟩ := by
  induction ps generalizing start earlier with
  | nil => simp [tokensFrom] at h
  | cons p ps ih =>
    rw [tokensFrom] at h
    cases earlier with
    | nil =>
      obtain ⟨rfl, -⟩ := List.cons.inj h
      exact ⟨[], p, ps, rfl, rfl, rfl⟩
    | cons u earlier =>
      obtain ⟨rfl, hothers⟩ := List.cons.inj h
      obtain ⟨before, q, after, rfl, hbefore, ht⟩ := ih hothers
      refine ⟨p :: before, q, after, rfl, ?_, ?_⟩
      · rw [tokensFrom, hbefore]
      · rw [ht, charsOf_cons, List.append_assoc, ← Position.after_append]

/-- The characters of a cut are the front of the token behind them. -/
theorem Cut.Valid.isFront {front : Cut} (h : front.Valid) {source text : String} {kind : TokenKind}
    (htext : ∃ rest, source.toList = front.source ++ text.toList ++ rest)
    (hwhole : kind = .endOfText → front.source = source.toList) :
    IsFront source (tokensFrom .start front.pieces)
      ⟨kind, text, Position.start.after front.source⟩ front.source := by
  refine ⟨?_, htext, ?_, ?_, hwhole⟩
  · exact h.tokenize_eq (String.toList_ofList).symm
  · rw [Position.after_start]
  · rw [Position.after_start]

/-- Every token of a text has a front. -/
theorem exists_isFront {source : String} {earlier later : List Token} {t : Token}
    (h : tokenize source = earlier ++ t :: later) : ∃ front, IsFront source earlier t front := by
  obtain ⟨cut, hcut, hvalid⟩ := exists_cut source.toList
  rw [hvalid.tokenize_eq hcut, Cut.tokens] at h
  rcases List.eq_nil_or_concat later with rfl | ⟨init, last, rfl⟩
  · -- the token for the end, behind the whole text
    obtain ⟨rfl, hend⟩ := List.append_inj' h rfl
    obtain rfl := List.singleton_inj.mp hend
    exact ⟨_, hvalid.isFront ⟨[], by simp [hcut]⟩ fun _ => hcut⟩
  · rw [List.concat_eq_append, ← List.cons_append, ← List.append_assoc] at h
    obtain ⟨before, p, after, hpieces, rfl, rfl⟩ :=
      exists_piece_of_tokensFrom (List.append_inj' h rfl).1
    obtain ⟨hfit, hlast⟩ := hvalid
    rw [hpieces] at hfit
    obtain ⟨hbefore, ⟨hgap, htext⟩, -⟩ := fitBefore_append.mp hfit
    have hend : IsGap p.gap ([] ++ (p.text ++ (charsOf after ++ cut.last))) := hgap
    have hfront : Cut.Valid ⟨before, p.gap⟩ := by
      refine ⟨?_, hend.of_closesLike (closesLike_append _ _)⟩
      rw [charsOf_cons, Piece.chars, List.append_assoc, List.append_assoc] at hbefore
      exact hbefore.of_closesLike (closesLike_append _ _)
    refine ⟨_, hfront.isFront ⟨charsOf after ++ cut.last, ?_⟩ ?_⟩
    · rw [← hcut, Cut.source, Cut.source, hpieces, charsOf_append, charsOf_cons, Piece.chars]
      simp
    · exact fun hkind => absurd hkind htext.kind_ne_endOfText

/-! ## The end of the text -/

theorem Cursor.nextToken_of_endOfText {c : Cursor} (h : c.nextToken.1.kind = .endOfText) :
    c.nextToken.1 = ⟨.endOfText, "", c.nextToken.2.position⟩ := by
  revert h
  unfold nextToken
  dsimp only
  split
  · exact fun _ => rfl
  split
  · exact fun h => by cases h
  split
  · exact fun h => by cases h
  · exact fun h => by cases h

/-- The last token stands where the cursor comes to stand. -/
theorem Cursor.dropLast_tokens (c : Cursor) :
    c.tokens.1 = c.tokens.1.dropLast ++ [⟨.endOfText, "", c.tokens.2.position⟩] := by
  fun_induction Cursor.tokens c with
  | case1 c step h =>
    have hstep := nextToken_of_endOfText h
    simp only [List.dropLast_singleton, List.nil_append]
    exact congrArg (fun t => [t]) hstep
  | case2 c step h others ih =>
    have hne : others.1 ≠ [] := by
      rw [ih]
      simp
    rw [List.dropLast_cons_of_ne_nil hne, List.cons_append]
    exact congrArg (step.1 :: ·) ih

end HackVm
