import HackVm.Token.Cursor
import Mathlib.Data.List.TakeWhile

set_option autoImplicit false

/-! # Texts are cut into tokens in one way

A cut of a text is a row of pieces, each a token with the gap before it, and a last gap. What a
gap and a token are is said without a cursor, by what stands in them and what stands behind them:
a comment, a number and a name go on as far as they can, and nothing is left out between two
pieces. Of what stands behind only the first character matters, and all controls are as good as the
end of the text (`ClosesLike`). A cursor in front of a piece passes just that piece
(`Piece.FitsBefore.nextToken`), so the tokens of a text are those of any cut
(`Cut.Valid.tokens_eq`), there is no other cut (`Cut.Valid.eq`), and going through the text finds
one (`exists_cut`). Together: `existsUnique_cut`. -/

namespace HackVm

open Text

/-! ## Cuts -/

/-- `IsGap gap rest`: the characters `gap` in front of `rest` are blanks and comments. A comment
lasts up to the next control character or to the end of the text. -/
inductive IsGap : List Char → List Char → Prop
  | nil (rest : List Char) : IsGap [] rest
  | blank {c : Char} {gap rest : List Char} (blank : isBlank c = true) (others : IsGap gap rest) :
      IsGap (c :: gap) rest
  | comment {body gap rest : List Char} (body_inside : ∀ c ∈ body, isControl c = false)
      (maximal : ∀ c ∈ (gap ++ rest).head?, isControl c = true) (others : IsGap gap rest) :
      IsGap ('/' :: '/' :: (body ++ gap)) rest

/-- `IsLexeme kind text rest`: the characters `text` in front of `rest` are a token. -/
inductive IsLexeme : TokenKind → List Char → List Char → Prop
  | number {text rest : List Char} (nonempty : text ≠ []) (digits : ∀ c ∈ text, c.isDigit = true)
      (maximal : ∀ c ∈ rest.head?, c.isDigit = false) : IsLexeme .number text rest
  | identifier {c : Char} {cs rest : List Char} (letter : c.isAlpha = true)
      (parts : ∀ d ∈ cs, isNamePart d = true) (maximal : ∀ d ∈ rest.head?, isNamePart d = false) :
      IsLexeme .identifier (c :: cs) rest
  | symbol {c : Char} {rest : List Char} (digit : c.isDigit = false) (letter : c.isAlpha = false)
      (blank : isBlank c = false) (comment : c = '/' → rest.head? ≠ some '/') :
      IsLexeme .symbol [c] rest

/-- A token of a text, with the gap before it. -/
structure Piece where
  gap : List Char
  kind : TokenKind
  text : List Char

def Piece.chars (p : Piece) : List Char :=
  p.gap ++ p.text

def charsOf (ps : List Piece) : List Char :=
  ps.flatMap Piece.chars

/-- A piece with `rest` behind it. -/
structure Piece.FitsBefore (p : Piece) (rest : List Char) : Prop where
  gap : IsGap p.gap (p.text ++ rest)
  text : IsLexeme p.kind p.text rest

/-- Pieces in a row with `rest` behind the last. -/
def FitBefore (rest : List Char) : List Piece → Prop
  | [] => True
  | p :: ps => p.FitsBefore (charsOf ps ++ rest) ∧ FitBefore rest ps

/-- The tokens of pieces in a row that begin at `start`. -/
def tokensFrom (start : Position) : List Piece → List Token
  | [] => []
  | p :: ps =>
    ⟨p.kind, String.ofList p.text, start.after p.gap⟩ :: tokensFrom (start.after p.chars) ps

/-- A text cut into tokens and what stands between, before and behind them. -/
structure Cut where
  pieces : List Piece
  last : List Char

namespace Cut

/-- All characters of a cut in their order. -/
def source (cut : Cut) : List Char :=
  charsOf cut.pieces ++ cut.last

structure Valid (cut : Cut) : Prop where
  pieces : FitBefore cut.last cut.pieces
  last : IsGap cut.last []

/-- The tokens of a cut and the one for the end of the text, in a text that begins at `start`. -/
def tokens (cut : Cut) (start : Position) : List Token :=
  tokensFrom start cut.pieces ++ [⟨.endOfText, "", start.after cut.source⟩]

end Cut

@[simp] theorem charsOf_nil : charsOf [] = [] := rfl

@[simp] theorem charsOf_cons (p : Piece) (ps : List Piece) :
    charsOf (p :: ps) = p.chars ++ charsOf ps := rfl

theorem charsOf_append (ps qs : List Piece) : charsOf (ps ++ qs) = charsOf ps ++ charsOf qs :=
  List.flatMap_append

theorem fitBefore_append {rest : List Char} {ps qs : List Piece} :
    FitBefore rest (ps ++ qs) ↔ FitBefore (charsOf qs ++ rest) ps ∧ FitBefore rest qs := by
  induction ps with
  | nil => simp [FitBefore]
  | cons p ps ih =>
    simp only [List.cons_append, FitBefore, ih, charsOf_append, List.append_assoc, and_assoc]

theorem tokensFrom_append (start : Position) (ps qs : List Piece) :
    tokensFrom start (ps ++ qs) =
      tokensFrom start ps ++ tokensFrom (start.after (charsOf ps)) qs := by
  induction ps generalizing start with
  | nil => rfl
  | cons p ps ih =>
    rw [List.cons_append, tokensFrom, ih, charsOf_cons, Position.after_append]
    rfl

/-! ## Where a gap ends -/

theorem isBlank_eq_false_of_isNamePart {c : Char} (h : isNamePart c = true) :
    isBlank c = false := by
  simp only [isNamePart, Bool.or_eq_true, beq_iff_eq] at h
  obtain (((hdigit | halpha) | rfl) | rfl) | rfl := h
  · exact isBlank_eq_false_of_isDigit hdigit
  · exact isBlank_eq_false_of_isAlpha halpha
  all_goals decide

/-- The text `rest` goes on with neither a blank nor a comment. -/
structure EndsGap (rest : List Char) : Prop where
  blank : ∀ c ∈ rest.head?, isBlank c = false
  comment : ∀ cs, rest ≠ '/' :: '/' :: cs

theorem EndsGap.nil : EndsGap [] := by
  refine ⟨?_, ?_⟩
  · intro c hc
    cases hc
  · intro cs h
    cases h

theorem IsLexeme.ne_nil {kind : TokenKind} {text rest : List Char} (h : IsLexeme kind text rest) :
    text ≠ [] := by
  cases h with
  | number nonempty digits maximal => exact nonempty
  | identifier letter parts maximal => exact List.cons_ne_nil _ _
  | symbol digit letter blank comment => exact List.cons_ne_nil _ _

theorem IsLexeme.kind_ne_endOfText {kind : TokenKind} {text rest : List Char}
    (h : IsLexeme kind text rest) : kind ≠ .endOfText := by
  cases h <;> decide

/-- There is no blank in a token. -/
theorem IsLexeme.isBlank_eq_false {kind : TokenKind} {text rest : List Char}
    (h : IsLexeme kind text rest) : ∀ c ∈ text, isBlank c = false := by
  cases h with
  | number nonempty digits maximal => exact fun c hc => isBlank_eq_false_of_isDigit (digits c hc)
  | identifier letter parts maximal =>
    refine List.forall_mem_cons.mpr ⟨isBlank_eq_false_of_isAlpha letter, ?_⟩
    intro d hd
    exact isBlank_eq_false_of_isNamePart (parts d hd)
  | symbol digit letter blank comment => exact List.forall_mem_singleton.mpr blank

/-- A character that is no blank and begins no comment ends a gap. -/
theorem EndsGap.cons {c : Char} {rest : List Char} (hblank : isBlank c = false)
    (hcomment : c = '/' → rest.head? ≠ some '/') : EndsGap (c :: rest) := by
  refine ⟨?_, ?_⟩
  · intro d hd
    cases hd
    exact hblank
  · intro cs h
    obtain ⟨rfl, rfl⟩ := List.cons.inj h
    exact hcomment rfl rfl

/-- No token begins like a gap. -/
theorem IsLexeme.endsGap {kind : TokenKind} {text rest : List Char} (h : IsLexeme kind text rest) :
    EndsGap (text ++ rest) := by
  cases h with
  | number nonempty digits maximal =>
    obtain ⟨c, cs, rfl⟩ := List.exists_cons_of_ne_nil nonempty
    have hdigit : c.isDigit = true := digits c List.mem_cons_self
    refine .cons (isBlank_eq_false_of_isDigit hdigit) ?_
    rintro rfl
    exact absurd hdigit (by decide)
  | @identifier c cs rest letter parts maximal =>
    refine .cons (isBlank_eq_false_of_isAlpha letter) ?_
    rintro rfl
    exact absurd letter (by decide)
  | symbol digit letter blank comment => exact .cons blank comment

/-! ## What stands behind -/

/-- The text `rest'` ends what stands before it wherever `rest` does: it begins with the same
character, with a control, or not at all. -/
def ClosesLike (rest' rest : List Char) : Prop :=
  ∀ c ∈ rest'.head?, c ∈ rest.head? ∨ isControl c = true

namespace ClosesLike

variable {rest rest' : List Char}

theorem forall_head? {P : Char → Prop} (h : ClosesLike rest' rest) (hrest : ∀ c ∈ rest.head?, P c)
    (hcontrol : ∀ c, isControl c = true → P c) : ∀ c ∈ rest'.head?, P c :=
  fun c hc => (h c hc).elim (hrest c) (hcontrol c)

theorem append_left (cs : List Char) (h : ClosesLike rest' rest) :
    ClosesLike (cs ++ rest') (cs ++ rest) := by
  cases cs with
  | nil => exact h
  | cons d ds => exact fun c hc => .inl hc

end ClosesLike

theorem isNamePart_eq_false_of_isControl {c : Char} (h : isControl c = true) :
    isNamePart c = false := by
  simp only [isControl, Bool.or_eq_true, Bool.and_eq_true, decide_eq_true_eq] at h
  refine Bool.eq_false_iff.mpr fun hpart => ?_
  simp only [isNamePart, Bool.or_eq_true, beq_iff_eq] at hpart
  obtain (((hdigit | halpha) | rfl) | rfl) | rfl := hpart
  · have := toNat_of_isDigit hdigit
    omega
  · have := toNat_of_isAlpha halpha
    omega
  all_goals exact absurd h (by decide)

theorem isDigit_eq_false_of_isControl {c : Char} (h : isControl c = true) : c.isDigit = false := by
  refine Bool.eq_false_iff.mpr fun hdigit => ?_
  exact Bool.eq_false_iff.mp (isNamePart_eq_false_of_isControl h) (isNamePart_of_isDigit hdigit)

theorem IsLexeme.of_closesLike {kind : TokenKind} {text rest rest' : List Char}
    (h : IsLexeme kind text rest) (hrest : ClosesLike rest' rest) : IsLexeme kind text rest' := by
  cases h with
  | number nonempty digits maximal =>
    exact .number nonempty digits
      (hrest.forall_head? maximal fun _ => isDigit_eq_false_of_isControl)
  | identifier letter parts maximal =>
    exact .identifier letter parts
      (hrest.forall_head? maximal fun _ => isNamePart_eq_false_of_isControl)
  | symbol digit letter blank comment =>
    refine .symbol digit letter blank fun hslash hhead => ?_
    rcases hrest '/' hhead with hsame | hcontrol
    · exact comment hslash hsame
    · exact absurd hcontrol (by decide)

theorem IsGap.of_closesLike {gap rest rest' : List Char} (h : IsGap gap rest)
    (hrest : ClosesLike rest' rest) : IsGap gap rest' := by
  induction h with
  | nil rest => exact .nil _
  | blank blank others ih => exact .blank blank (ih hrest)
  | @comment body gap rest body_inside maximal others ih =>
    exact .comment body_inside ((hrest.append_left gap).forall_head? maximal fun _ => id)
      (ih hrest)

theorem FitBefore.of_closesLike {rest rest' : List Char} {ps : List Piece} (h : FitBefore rest ps)
    (hrest : ClosesLike rest' rest) : FitBefore rest' ps := by
  induction ps with
  | nil => trivial
  | cons p ps ih =>
    obtain ⟨⟨hgap, htext⟩, hps⟩ := h
    have hbehind := hrest.append_left (charsOf ps)
    exact ⟨⟨hgap.of_closesLike (hbehind.append_left p.text), htext.of_closesLike hbehind⟩, ih hps⟩

/-! ## A cursor before a piece -/

/-- A run of a class ends before a character outside of it. -/
theorem takeWhile_append_of_boundary {p : Char → Bool} {run rest : List Char}
    (hrun : ∀ c ∈ run, p c = true) (hrest : ∀ c ∈ rest.head?, p c = false) :
    (run ++ rest).takeWhile p = run := by
  rw [List.takeWhile_append_of_pos hrun]
  cases rest with
  | nil => rw [List.takeWhile_nil, List.append_nil]
  | cons c cs =>
    rw [List.takeWhile_cons_of_neg (by simp [hrest c rfl]), List.append_nil]

namespace Cursor

@[simp] theorem skip_zero (c : Cursor) : c.skip 0 = c := by
  simp [skip]

theorem skip_skip (c : Cursor) (m n : Nat) : (c.skip m).skip n = c.skip (m + n) := by
  simp only [skip, List.take_add, List.reverse_append, List.append_assoc, List.drop_drop,
    Position.after_append]

theorem rest_skip_length {c : Cursor} {text rest : List Char} (h : c.rest = text ++ rest) :
    (c.skip text.length).rest = rest := by
  rw [rest_skip, h, List.drop_left]

theorem position_skip_length {c : Cursor} {text rest : List Char} (h : c.rest = text ++ rest) :
    (c.skip text.length).position = c.position.after text := by
  rw [position_skip, h, List.take_left]

theorem skipWhile_of_boundary {p : Char → Bool} {c : Cursor} {run rest : List Char}
    (h : c.rest = run ++ rest) (hrun : ∀ d ∈ run, p d = true)
    (hrest : ∀ d ∈ rest.head?, p d = false) : c.skipWhile p = c.skip run.length := by
  rw [skipWhile, h, takeWhile_append_of_boundary hrun hrest]

theorem skipBlanks_of_head {c : Cursor} (h : ∀ d ∈ c.rest.head?, isBlank d = false) :
    c.skipBlanks = c := by
  have hnone : c.skipBlanks = c.skip 0 :=
    skipWhile_of_boundary (List.nil_append _).symm (List.forall_mem_nil _) h
  rw [hnone, skip_zero]

theorem skipGap_of_endsGap {c : Cursor} (h : EndsGap c.rest) : c.skipGap = c := by
  have hcomment : ¬ c.startsComment = true := by
    rw [startsComment_iff]
    rintro ⟨rest, hrest⟩
    exact h.comment rest hrest
  rw [skipGap, skipBlanks_of_head h.blank]
  simp only [hcomment, Bool.false_eq_true, dite_false]

/-- A blank is passed first. -/
theorem skipGap_of_blank {c : Cursor} {d : Char} {rest : List Char} (h : c.rest = d :: rest)
    (hd : isBlank d = true) : c.skipGap = (c.skip 1).skipGap := by
  have hblanks : c.skipBlanks = (c.skip 1).skipBlanks := by
    rw [skipBlanks, skipBlanks, skipWhile, skipWhile, skip_skip, rest_skip, h, List.drop_one,
      List.tail_cons, List.takeWhile_cons_of_pos hd, List.length_cons, Nat.add_comm]
  rw [skipGap, hblanks, ← skipGap]

/-- A comment is passed first. -/
theorem skipGap_of_comment {c : Cursor} {body rest : List Char}
    (h : c.rest = '/' :: '/' :: (body ++ rest)) (hbody : ∀ d ∈ body, isControl d = false)
    (hrest : ∀ d ∈ rest.head?, isControl d = true) :
    c.skipGap = (c.skip ('/' :: '/' :: body).length).skipGap := by
  have hstarts : c.startsComment = true := c.startsComment_iff.mpr ⟨_, h⟩
  have hblanks : c.skipBlanks = c := by
    refine skipBlanks_of_head ?_
    intro d hd
    rw [h] at hd
    cases hd
    decide
  have hcomment : c.skipComment = c.skip ('/' :: '/' :: body).length := by
    rw [skipComment, if_pos hstarts]
    have hrun : c.rest = ('/' :: '/' :: body) ++ rest := h
    refine skipWhile_of_boundary hrun ?_ ?_
    · intro d hd
      rcases List.mem_cons.mp hd with rfl | hd
      · decide
      rcases List.mem_cons.mp hd with rfl | hd
      · decide
      · rw [hbody d hd]
        rfl
    · intro d hd
      rw [hrest d hd]
      rfl
  rw [skipGap, hblanks]
  simp only [hstarts, dite_true, hcomment]

end Cursor

/-- A cursor passes a gap as a whole. The induction follows the gap from left to right. -/
theorem IsGap.skipGap {gap rest : List Char} (h : IsGap gap rest) (hrest : EndsGap rest)
    {c : Cursor} (hc : c.rest = gap ++ rest) : c.skipGap = c.skip gap.length := by
  induction h generalizing c with
  | nil rest =>
    rw [Cursor.skipGap_of_endsGap (hc ▸ hrest), List.length_nil, Cursor.skip_zero]
  | @blank d gap rest blank others ih =>
    have htail : (c.skip 1).rest = gap ++ rest := by
      rw [Cursor.rest_skip, hc]
      rfl
    rw [Cursor.skipGap_of_blank hc blank, ih hrest htail, Cursor.skip_skip, List.length_cons,
      Nat.add_comm]
  | @comment body gap rest body_inside maximal others ih =>
    have hbody : c.rest = ('/' :: '/' :: body) ++ (gap ++ rest) := by
      rw [hc]
      simp only [List.cons_append, List.append_assoc]
    rw [Cursor.skipGap_of_comment hbody body_inside maximal,
      ih hrest (Cursor.rest_skip_length hbody), Cursor.skip_skip, ← List.length_append,
      List.cons_append, List.cons_append]

/-- A cursor before a token reads it. -/
theorem IsLexeme.nextToken {kind : TokenKind} {text rest : List Char} (h : IsLexeme kind text rest)
    {c : Cursor} (hc : c.skipGap.rest = text ++ rest) :
    c.nextToken = (⟨kind, String.ofList text, c.skipGap.position⟩, c.skipGap.skip text.length) := by
  cases h with
  | number nonempty digits maximal =>
    obtain ⟨d, ds, rfl⟩ := List.exists_cons_of_ne_nil nonempty
    have hdigit : d.isDigit = true := digits d List.mem_cons_self
    have hrun := takeWhile_append_of_boundary digits maximal
    simp only [Cursor.nextToken, Cursor.readNumber, Cursor.readWhile, Cursor.skipWhile, hc, hrun]
    rw [List.cons_append]
    simp only [hdigit, if_true]
  | @identifier d ds rest letter parts maximal =>
    have hall : ∀ e ∈ d :: ds, isNamePart e = true := by
      intro e he
      rcases List.mem_cons.mp he with rfl | he
      · exact isNamePart_of_isAlpha letter
      · exact parts e he
    have hrun := takeWhile_append_of_boundary hall maximal
    simp only [Cursor.nextToken, Cursor.readName, Cursor.readWhile, Cursor.skipWhile, hc, hrun]
    rw [List.cons_append]
    simp only [isDigit_eq_false_of_isAlpha letter, letter, if_true, Bool.false_eq_true, if_false]
  | @symbol d rest digit letter blank comment =>
    simp only [Cursor.nextToken, hc]
    rw [List.singleton_append]
    simp only [digit, letter, Bool.false_eq_true, if_false]
    rfl

/-- A cursor before a piece reads its token and stands behind the piece. -/
theorem Piece.FitsBefore.nextToken {p : Piece} {rest : List Char} (h : p.FitsBefore rest)
    {c : Cursor} (hc : c.rest = p.chars ++ rest) :
    c.nextToken = (⟨p.kind, String.ofList p.text, c.position.after p.gap⟩,
      c.skip p.chars.length) := by
  have hchars : c.rest = p.gap ++ (p.text ++ rest) := by
    rw [hc, Piece.chars, List.append_assoc]
  have hgap : c.skipGap = c.skip p.gap.length := h.gap.skipGap h.text.endsGap hchars
  have htext : c.skipGap.rest = p.text ++ rest := by
    rw [hgap, Cursor.rest_skip_length hchars]
  rw [h.text.nextToken htext, hgap, Cursor.position_skip_length hchars, Cursor.skip_skip,
    ← List.length_append]
  rfl

/-- A cursor before the last gap is at the end of the text. -/
theorem IsGap.nextToken {gap : List Char} (h : IsGap gap []) {c : Cursor} (hc : c.rest = gap) :
    c.nextToken = (⟨.endOfText, "", c.position.after gap⟩, c.skip gap.length) := by
  have hnil : c.rest = gap ++ [] := by rw [hc, List.append_nil]
  have hgap : c.skipGap = c.skip gap.length := h.skipGap .nil hnil
  have hend : (c.skip gap.length).rest = [] := Cursor.rest_skip_length hnil
  simp only [Cursor.nextToken, hgap, hend, Cursor.position_skip_length hnil]

/-! ## The tokens of a cut -/

/-- A cursor before a cut reads the tokens of the cut. The induction is on its pieces. -/
theorem Cut.Valid.tokens_eq {cut : Cut} (h : cut.Valid) {c : Cursor} (hc : c.rest = cut.source) :
    c.tokens.1 = cut.tokens c.position := by
  obtain ⟨pieces, last⟩ := cut
  obtain ⟨hpieces, hlast⟩ := h
  induction pieces generalizing c with
  | nil =>
    have hnext := hlast.nextToken hc
    rw [Cursor.tokens, dif_pos (by rw [hnext]), hnext]
    rfl
  | cons p ps ih =>
    obtain ⟨hp, hps⟩ := hpieces
    rw [Cut.source, charsOf_cons, List.append_assoc] at hc
    have hnext := hp.nextToken hc
    have hothers := ih (Cursor.rest_skip_length hc) hps hlast
    have hkind : ¬ c.nextToken.1.kind = .endOfText := by
      rw [hnext]
      exact hp.text.kind_ne_endOfText
    rw [Cursor.tokens, dif_neg hkind, hnext]
    dsimp only
    rw [hothers, Cursor.position_skip_length hc]
    simp only [Cut.tokens, Cut.source, tokensFrom, List.cons_append, charsOf_cons,
      Position.after_append, List.append_assoc]

/-! ## No other cut -/

theorem Piece.FitsBefore.eq {p q : Piece} {rest rest' : List Char} (hp : p.FitsBefore rest)
    (hq : q.FitsBefore rest') (h : p.chars ++ rest = q.chars ++ rest') :
    p = q ∧ rest = rest' := by
  let c : Cursor := ⟨[], p.chars ++ rest, .start⟩
  have hcp : c.rest = p.chars ++ rest := rfl
  have hcq : c.rest = q.chars ++ rest' := h
  have hnextp := hp.nextToken hcp
  have hnextq := hq.nextToken hcq
  obtain ⟨htoken, hskip⟩ := Prod.mk.inj (hnextp.symm.trans hnextq)
  obtain ⟨hkind, htext, -⟩ := Token.mk.inj htoken
  have hrest : rest = rest' := by
    rw [← Cursor.rest_skip_length hcp, hskip, Cursor.rest_skip_length hcq]
  have hchars : p.gap ++ p.text = q.gap ++ q.text := List.append_cancel_right (hrest ▸ h)
  have htext' : p.text = q.text := String.ofList_injective htext
  have hgap : p.gap = q.gap := List.append_cancel_right (htext' ▸ hchars)
  refine ⟨?_, hrest⟩
  obtain ⟨gap, kind, text⟩ := p
  cases q
  simp_all

theorem Piece.FitsBefore.not_isGap {p : Piece} {rest gap : List Char} (hp : p.FitsBefore rest)
    (h : p.chars ++ rest = gap) : ¬ IsGap gap [] := by
  intro hgap
  let c : Cursor := ⟨[], gap, .start⟩
  have hnext := (hp.nextToken (c := c) h.symm).symm.trans (hgap.nextToken (c := c) rfl)
  exact hp.text.kind_ne_endOfText (congrArg (fun step => step.1.kind) hnext)

/-- Two cuts of one text are the same: their first pieces are, and so on. -/
theorem Cut.Valid.eq {cut cut' : Cut} (h : cut.Valid) (h' : cut'.Valid)
    (hsource : cut.source = cut'.source) : cut = cut' := by
  obtain ⟨pieces, last⟩ := cut
  obtain ⟨pieces', last'⟩ := cut'
  obtain ⟨hpieces, hlast⟩ := h
  obtain ⟨hpieces', hlast'⟩ := h'
  induction pieces generalizing pieces' with
  | nil =>
    cases pieces' with
    | nil =>
      have hlasts : last = last' := hsource
      rw [hlasts]
    | cons q qs =>
      rw [Cut.source, Cut.source, charsOf_cons, List.append_assoc] at hsource
      exact absurd hlast (hpieces'.1.not_isGap hsource.symm)
  | cons p ps ih =>
    rw [Cut.source, charsOf_cons, List.append_assoc] at hsource
    cases pieces' with
    | nil => exact absurd hlast' (hpieces.1.not_isGap hsource)
    | cons q qs =>
      rw [Cut.source, charsOf_cons, List.append_assoc] at hsource
      obtain ⟨rfl, hrest⟩ := hpieces.1.eq hpieces'.1 hsource
      obtain ⟨rfl, rfl⟩ := Cut.mk.inj (ih qs hrest hpieces.2 hlast hpieces'.2 hlast')
      rfl

/-! ## Finding a cut -/

theorem IsGap.append_blanks {blanks gap rest : List Char} (h : ∀ c ∈ blanks, isBlank c = true)
    (hgap : IsGap gap rest) : IsGap (blanks ++ gap) rest := by
  induction blanks with
  | nil => exact hgap
  | cons c cs ih =>
    refine .blank (h c List.mem_cons_self) (ih fun d hd => ?_)
    exact h d (List.mem_cons_of_mem c hd)

theorem head?_dropWhile {p : Char → Bool} (cs : List Char) :
    ∀ c ∈ (cs.dropWhile p).head?, p c = false := by
  intro c hc
  have hnot := List.head?_dropWhile_not p cs
  rw [Option.mem_def.mp hc] at hnot
  simpa using hnot

/-- What a cursor passes before a token is a gap, and it ends there. The induction follows the
cursor from comment to comment. -/
theorem Cursor.exists_gap (c : Cursor) :
    ∃ gap, c.rest = gap ++ c.skipGap.rest ∧ IsGap gap c.skipGap.rest ∧ EndsGap c.skipGap.rest := by
  fun_induction Cursor.skipGap c with
  | case1 c c' hstarts ih =>
    obtain ⟨gap, hrest, hgap, hends⟩ := ih
    obtain ⟨cs, hcs⟩ := c'.startsComment_iff.mp hstarts
    generalize hbehind : c'.skipComment.skipGap.rest = behind at hrest hgap hends
    rw [skipComment, if_pos hstarts, rest_skipWhile] at hrest
    let inside : Char → Bool := fun ch => !isControl ch
    have hslashes : c'.rest.dropWhile inside = cs.dropWhile inside := by
      rw [hcs]
      rfl
    have hblanks : c.rest = c.rest.takeWhile isBlank ++ c'.rest := by
      rw [show c'.rest = c.rest.dropWhile isBlank from rest_skipWhile _ _,
        List.takeWhile_append_dropWhile]
    have hcomment : c'.rest = '/' :: '/' :: (cs.takeWhile inside ++ gap) ++ behind := by
      rw [hcs, List.cons_append, List.cons_append, List.append_assoc, ← hrest, hslashes,
        List.takeWhile_append_dropWhile]
    refine ⟨c.rest.takeWhile isBlank ++ '/' :: '/' :: (cs.takeWhile inside ++ gap), ?_, ?_, hends⟩
    · rw [List.append_assoc, ← hcomment]
      exact hblanks
    · refine .append_blanks (fun d hd => List.mem_takeWhile_imp hd) (.comment ?_ ?_ hgap)
      · intro d hd
        simpa [inside] using List.mem_takeWhile_imp hd
      · intro d hd
        rw [← hrest] at hd
        simpa using head?_dropWhile _ d hd
  | case2 c c' hstarts =>
    have hrest : c'.rest = c.rest.dropWhile isBlank := rest_skipWhile _ _
    refine ⟨c.rest.takeWhile isBlank, ?_, ?_, ?_, ?_⟩
    · rw [hrest, List.takeWhile_append_dropWhile]
    · rw [← List.append_nil (c.rest.takeWhile isBlank)]
      exact .append_blanks (fun d hd => List.mem_takeWhile_imp hd) (.nil _)
    · rw [hrest]
      exact head?_dropWhile _
    · intro cs hcs
      exact hstarts (c'.startsComment_iff.mpr ⟨cs, hcs⟩)

/-- A token begins wherever a gap ends before the end of the text. -/
theorem EndsGap.exists_lexeme {cs : List Char} (h : EndsGap cs) (hne : cs ≠ []) :
    ∃ kind text rest, cs = text ++ rest ∧ IsLexeme kind text rest := by
  obtain ⟨c, cs, rfl⟩ := List.exists_cons_of_ne_nil hne
  by_cases hdigit : c.isDigit = true
  · refine ⟨.number, (c :: cs).takeWhile Char.isDigit, (c :: cs).dropWhile Char.isDigit,
      List.takeWhile_append_dropWhile.symm, .number ?_ ?_ (head?_dropWhile _)⟩
    · rw [List.takeWhile_cons_of_pos hdigit]
      exact List.cons_ne_nil _ _
    · intro d hd
      exact List.mem_takeWhile_imp hd
  by_cases halpha : c.isAlpha = true
  · refine ⟨.identifier, c :: cs.takeWhile isNamePart, cs.dropWhile isNamePart, ?_,
      .identifier halpha (fun d hd => List.mem_takeWhile_imp hd) (head?_dropWhile _)⟩
    rw [List.cons_append, List.takeWhile_append_dropWhile]
  · refine ⟨.symbol, [c], cs, rfl, .symbol (Bool.eq_false_iff.mpr hdigit)
      (Bool.eq_false_iff.mpr halpha) (h.blank c rfl) ?_⟩
    rintro rfl hslash
    obtain ⟨ds, rfl⟩ := List.head?_eq_some_iff.mp hslash
    exact h.comment ds rfl

/-- Every text has a cut. The induction is on the number of characters left. -/
theorem exists_cut (cs : List Char) : ∃ cut : Cut, cut.source = cs ∧ cut.Valid := by
  induction hlength : cs.length using Nat.strong_induction_on generalizing cs with
  | _ n ih =>
    obtain ⟨gap, hrest, hgap, hends⟩ := Cursor.exists_gap ⟨[], cs, .start⟩
    change cs = _ at hrest
    generalize (Cursor.skipGap ⟨[], cs, .start⟩).rest = behind at hrest hgap hends
    by_cases hnil : behind = []
    · subst hnil
      refine ⟨⟨[], gap⟩, ?_, trivial, hgap⟩
      rw [Cut.source, charsOf_nil, List.nil_append, ← List.append_nil gap]
      exact hrest.symm
    · obtain ⟨kind, text, rest, rfl, htext⟩ := hends.exists_lexeme hnil
      have hshorter : rest.length < n := by
        have hpos : 0 < text.length := List.length_pos_iff.mpr htext.ne_nil
        rw [← hlength, hrest, List.length_append, List.length_append]
        omega
      obtain ⟨cut, rfl, hvalid⟩ := ih _ hshorter rest rfl
      refine ⟨⟨⟨gap, kind, text⟩ :: cut.pieces, cut.last⟩, ?_, ⟨⟨hgap, htext⟩, hvalid.pieces⟩,
        hvalid.last⟩
      rw [hrest, Cut.source, charsOf_cons, List.append_assoc, Piece.chars, List.append_assoc]
      rfl

theorem Cut.Valid.tokenize_eq {cut : Cut} (h : cut.Valid) {source : String}
    (hsource : cut.source = source.toList) : tokenize source = cut.tokens .start :=
  h.tokens_eq hsource.symm

/-- Every text can be cut in exactly one way into gaps and tokens that are as long as possible,
and its tokens are those of the cut, in order and with the characters they have there. -/
theorem existsUnique_cut (source : String) :
    (∃! cut : Cut, cut.source = source.toList ∧ cut.Valid) ∧
      ∀ cut : Cut, cut.source = source.toList → cut.Valid →
        tokenize source = cut.tokens .start := by
  refine ⟨?_, ?_⟩
  · obtain ⟨cut, hsource, hvalid⟩ := exists_cut source.toList
    refine ⟨cut, ⟨hsource, hvalid⟩, ?_⟩
    rintro cut' ⟨hsource', hvalid'⟩
    exact hvalid'.eq hvalid (hsource'.trans hsource.symm)
  · intro cut hsource hvalid
    exact hvalid.tokenize_eq hsource

end HackVm
