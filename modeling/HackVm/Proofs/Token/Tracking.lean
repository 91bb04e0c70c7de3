import HackVm.Proofs.Token.Places

set_option autoImplicit false

/-! # Cursors keep track of their place

A cursor may be used in any way and in any order: to look around, also where there is nothing, to
pass characters one by one, to begin with a run in the middle of another, to read one token or all
that are left. It never moves but by `skip`, so the place that it carries along stays the one that
the text tells (`StandsIn.skip`), and what it passes before a token tells where the token begins
(`StandsIn.exists_nextToken`). One use keeps this and leads forward (`StandsIn.perform`), and so
does any row of uses (`StandsIn.performAll`): all tokens that are read stand in the text in their
order, each in the place that it carries. -/

namespace HackVm

open Text

/-! ## Places in a text -/

/-- The place behind the first `i` characters of a text: as many lines down as there are line feeds
in them, and as many columns on as there are characters behind the last of these. -/
structure Text.Position.IsAt (p : Position) (text : List Char) (i : Nat) : Prop where
  inside : i ≤ text.length
  line : p.line = (text.take i).count '\n'
  column : p.column = ((text.take i).reverse.takeWhile (· != '\n')).length

theorem Text.Position.isAt_length (front rest : List Char) :
    (start.after front).IsAt (front ++ rest) front.length := by
  rw [after_start]
  refine ⟨?_, ?_, ?_⟩
  · rw [List.length_append]
    exact Nat.le_add_right _ _
  · rw [List.take_left]
  · rw [List.take_left]

/-- The token `t` is written in a text from its character `i` on, and carries the place of this
character. The token for the end stands behind all characters. -/
structure Token.StandsAt (t : Token) (text : List Char) (i : Nat) : Prop where
  written : t.text.toList <+: text.drop i
  place : t.position.IsAt text i
  empty_iff : t.text = "" ↔ t.kind = .endOfText
  whole : t.kind = .endOfText → i = text.length

/-- `InOrder text i ts k`: the tokens `ts` stand in a text one behind the other, none of them before
the character `i` and none beyond the character `k`. -/
inductive InOrder (text : List Char) : Nat → List Token → Nat → Prop
  | nil {i k : Nat} (forward : i ≤ k) : InOrder text i [] k
  | cons {i j k : Nat} {t : Token} {ts : List Token} (forward : i ≤ j) (stands : t.StandsAt text j)
      (others : InOrder text (j + t.text.length) ts k) : InOrder text i (t :: ts) k

namespace InOrder

variable {text : List Char} {i j k : Nat} {ts us : List Token}

theorem le (h : InOrder text i ts k) : i ≤ k := by
  induction h with
  | nil forward => exact forward
  | cons forward stands others ih => exact Nat.le_trans forward (Nat.le_of_add_right_le ih)

theorem of_le (hij : i ≤ j) (h : InOrder text j ts k) : InOrder text i ts k := by
  cases h with
  | nil forward => exact .nil (Nat.le_trans hij forward)
  | cons forward stands others => exact .cons (Nat.le_trans hij forward) stands others

theorem append (h : InOrder text i ts j) (h' : InOrder text j us k) :
    InOrder text i (ts ++ us) k := by
  induction h with
  | nil forward => exact h'.of_le forward
  | cons forward stands others ih => exact .cons forward stands (ih h')

theorem exists_standsAt (h : InOrder text i ts k) {t : Token} (ht : t ∈ ts) :
    ∃ j, i ≤ j ∧ j + t.text.length ≤ k ∧ t.StandsAt text j := by
  induction h with
  | nil forward => cases ht
  | @cons i j k u us forward stands others ih =>
    rcases List.mem_cons.mp ht with rfl | ht
    · exact ⟨j, forward, others.le, stands⟩
    · obtain ⟨j', hj', hk, hstands⟩ := ih ht
      exact ⟨j', Nat.le_trans forward (Nat.le_of_add_right_le hj'), hk, hstands⟩

end InOrder

namespace Cursor

/-! ## Uses -/

/-- What a cursor is used for. -/
inductive Use
  | look (distance : Int)
  | advance
  | skipBlanks
  | skipComment
  | readNumber
  | readName
  | nextToken
  | tokens

/-- What a use gives. -/
inductive Answer
  | found (ch : Except LookError (Option Char))
  | passed (ch : Option Char)
  | nothing
  | run (chars : String)
  | tokens (ts : List Token)

/-- The tokens that a use gives. -/
def Answer.read : Answer → List Token
  | .tokens ts => ts
  | _ => []

/-- What a use gives, and the cursor behind it. Looking leaves the cursor where it is, whether
there is something to see or not. -/
def perform (c : Cursor) : Use → Answer × Cursor
  | .look distance => (.found (c.look distance), c)
  | .advance => (.passed c.advance.1, c.advance.2)
  | .skipBlanks => (.nothing, c.skipBlanks)
  | .skipComment => (.nothing, c.skipComment)
  | .readNumber => (.run c.readNumber.1, c.readNumber.2)
  | .readName => (.run c.readName.1, c.readName.2)
  | .nextToken => (.tokens [c.nextToken.1], c.nextToken.2)
  | .tokens => (.tokens c.tokens.1, c.tokens.2)

/-- What a row of uses gives, and the cursor behind the last. -/
def performAll (c : Cursor) : List Use → List Answer × Cursor
  | [] => ([], c)
  | use :: uses =>
    let others := (c.perform use).2.performAll uses
    ((c.perform use).1 :: others.1, others.2)

/-! ## What uses keep -/

theorem le_offset_skip (c : Cursor) (n : Nat) : c.offset ≤ (c.skip n).offset := by
  rw [offset, offset, skip, List.length_append]
  exact Nat.le_add_left _ _

theorem offset_skip_length {c : Cursor} {cs rest : List Char} (h : c.rest = cs ++ rest) :
    (c.skip cs.length).offset = c.offset + cs.length := by
  rw [offset, offset, skip, h, List.take_left, List.length_append, List.length_reverse,
    Nat.add_comm]

/-- The cursor `c` stands in a text, and its place is the one behind the characters passed. -/
structure StandsIn (text : List Char) (c : Cursor) : Prop where
  source : c.source = text
  position : c.position = Position.start.after c.past.reverse

namespace StandsIn

variable {text : List Char} {c : Cursor}

theorem ofString (source : String) : StandsIn source.toList (ofString source) :=
  ⟨rfl, rfl⟩

theorem skip (h : c.StandsIn text) (n : Nat) : (c.skip n).StandsIn text := by
  refine ⟨(source_skip c n).trans h.source, ?_⟩
  have hpast : (c.skip n).past.reverse = c.past.reverse ++ c.rest.take n := by
    rw [Cursor.skip, List.reverse_append, List.reverse_reverse]
  rw [position_skip, hpast, Position.after_append, h.position]

/-- The place behind characters that are still to pass. -/
theorem isAt_after (h : c.StandsIn text) {cs rest : List Char} (hc : c.rest = cs ++ rest) :
    (c.position.after cs).IsAt text (c.offset + cs.length) := by
  have htext : text = (c.past.reverse ++ cs) ++ rest := by
    rw [← h.source, Cursor.source, hc, List.append_assoc]
  have hlength : c.offset + cs.length = (c.past.reverse ++ cs).length := by
    rw [List.length_append, List.length_reverse, offset]
  rw [h.position, ← Position.after_append, htext, hlength]
  exact Position.isAt_length _ _

theorem isAt (h : c.StandsIn text) : c.position.IsAt text c.offset :=
  h.isAt_after (List.nil_append c.rest).symm

/-- What a cursor has before it, behind a gap, stands there in the text. -/
theorem standsAt (h : c.StandsIn text) {gap chars rest : List Char} {kind : TokenKind}
    (hc : c.rest = gap ++ (chars ++ rest)) (hempty : chars = [] ↔ kind = .endOfText)
    (hwhole : kind = .endOfText → rest = []) :
    Token.StandsAt ⟨kind, String.ofList chars, c.position.after gap⟩ text
      (c.offset + gap.length) := by
  have htext : text = c.past.reverse ++ (gap ++ (chars ++ rest)) := by
    rw [← h.source, Cursor.source, hc]
  refine ⟨?_, h.isAt_after hc, ?_, ?_⟩
  · have hdrop : text.drop (c.offset + gap.length) = chars ++ rest := by
      rw [htext, ← List.append_assoc]
      exact List.drop_left' (by rw [List.length_append, List.length_reverse, offset])
    rw [hdrop, String.toList_ofList]
    exact List.prefix_append chars rest
  · rw [← hempty]
    exact String.ofList_eq_empty_iff
  · intro hkind
    rw [htext, hempty.mpr hkind, hwhole hkind]
    simp [offset]

/-- A token that is read begins where the gap before it ends, and the cursor comes to stand where
the token ends. -/
theorem exists_nextToken (h : c.StandsIn text) :
    ∃ i, c.offset ≤ i ∧ c.nextToken.1.StandsAt text i ∧
      c.nextToken.2.offset = i + c.nextToken.1.text.length ∧ c.nextToken.2.StandsIn text := by
  obtain ⟨gap, hrest, hgap, hends⟩ := c.exists_gap
  refine ⟨c.offset + gap.length, Nat.le_add_right _ _, ?_⟩
  by_cases hnil : c.skipGap.rest = []
  · rw [hnil] at hrest hgap
    rw [hgap.nextToken (hrest.trans (List.append_nil gap))]
    exact ⟨h.standsAt hrest (by simp) fun _ => rfl, offset_skip_length hrest, h.skip _⟩
  · obtain ⟨kind, chars, rest, hlexeme, htext⟩ := hends.exists_lexeme hnil
    rw [hlexeme] at hrest hgap
    let p : Piece := ⟨gap, kind, chars⟩
    have hfits : p.FitsBefore rest := ⟨hgap, htext⟩
    have hchars : c.rest = p.chars ++ rest := by rw [hrest, Piece.chars, List.append_assoc]
    rw [hfits.nextToken hchars]
    refine ⟨h.standsAt hrest ?_ ?_, ?_, h.skip _⟩
    · exact iff_of_false htext.ne_nil htext.kind_ne_endOfText
    · exact fun hkind => absurd hkind htext.kind_ne_endOfText
    · rw [offset_skip_length hchars, Piece.chars, List.length_append, Nat.add_assoc,
        String.length_ofList]

theorem nextToken (h : c.StandsIn text) :
    c.nextToken.2.StandsIn text ∧
      InOrder text c.offset [c.nextToken.1] c.nextToken.2.offset := by
  obtain ⟨i, hi, hstands, hoffset, hin⟩ := h.exists_nextToken
  exact ⟨hin, .cons hi hstands (.nil (Nat.le_of_eq hoffset.symm))⟩

/-- The induction follows the cursor from token to token. -/
theorem tokens (h : c.StandsIn text) :
    c.tokens.2.StandsIn text ∧ InOrder text c.offset c.tokens.1 c.tokens.2.offset := by
  fun_induction Cursor.tokens c with
  | case1 c step hlast => exact h.nextToken
  | case2 c step hlast others ih =>
    obtain ⟨hin, hfirst⟩ := h.nextToken
    obtain ⟨hin', hothers⟩ := ih hin
    exact ⟨hin', hfirst.append hothers⟩

/-- One use. -/
theorem perform (h : c.StandsIn text) (use : Use) :
    (c.perform use).2.StandsIn text ∧
      InOrder text c.offset (c.perform use).1.read (c.perform use).2.offset := by
  have hskip : ∀ n, (c.skip n).StandsIn text ∧ InOrder text c.offset [] (c.skip n).offset :=
    fun n => ⟨h.skip n, .nil (le_offset_skip c n)⟩
  cases use with
  | look distance => exact ⟨h, .nil (Nat.le_refl _)⟩
  | advance => exact hskip _
  | skipBlanks => exact hskip _
  | skipComment =>
    simp only [Cursor.perform, Cursor.skipComment]
    split
    · exact hskip _
    · exact ⟨h, .nil (Nat.le_refl _)⟩
  | readNumber => exact hskip _
  | readName => exact hskip _
  | nextToken => exact h.nextToken
  | tokens => exact h.tokens

/-- A row of uses. -/
theorem performAll (h : c.StandsIn text) (uses : List Use) :
    (c.performAll uses).2.StandsIn text ∧
      InOrder text c.offset ((c.performAll uses).1.flatMap Answer.read)
        (c.performAll uses).2.offset := by
  induction uses generalizing c with
  | nil => exact ⟨h, .nil (Nat.le_refl _)⟩
  | cons use uses ih =>
    obtain ⟨hin, horder⟩ := h.perform use
    obtain ⟨hin', horder'⟩ := ih hin
    exact ⟨hin', horder.append horder'⟩

end StandsIn

/-! ## Keeping track -/

/-- A cursor in a text that knows its place, whatever it is used for next. -/
structure Tracks (text : List Char) (c : Cursor) : Prop where
  source : c.source = text
  place : c.position.IsAt text c.offset
  /-- No use leads back. -/
  forward : ∀ use, c.offset ≤ (c.perform use).2.offset
  /-- The tokens that a use gives stand in what it passes, each in the place that it carries. -/
  tokens : ∀ use, ∀ t ∈ (c.perform use).1.read, ∃ i, c.offset ≤ i ∧
    i + t.text.length ≤ (c.perform use).2.offset ∧ t.StandsAt text i
  /-- Reading a token leads on, but for the one for the end. -/
  progress : c.nextToken.1.kind ≠ .endOfText → c.offset < c.nextToken.2.offset
  /-- The token for the end is read at the end. -/
  whole : c.nextToken.1.kind = .endOfText → c.nextToken.2.offset = text.length

theorem StandsIn.tracks {text : List Char} {c : Cursor} (h : c.StandsIn text) : Tracks text c := by
  obtain ⟨i, hi, hstands, hoffset, -⟩ := h.exists_nextToken
  refine ⟨h.source, h.isAt, ?_, ?_, ?_, ?_⟩
  · exact fun use => (h.perform use).2.le
  · exact fun use t ht => (h.perform use).2.exists_standsAt ht
  · intro hkind
    have hlength : c.nextToken.1.text.length ≠ 0 := by
      rw [Ne, String.length_eq_zero_iff, hstands.empty_iff]
      exact hkind
    omega
  · intro hkind
    rw [hoffset, hstands.empty_iff.mpr hkind, hstands.whole hkind]
    rfl

/-- However a cursor is used from the start of a text on, it knows its place in the text behind
every row of uses, and all tokens that were read stand in the text one behind the other, each in the
place that it carries. -/
theorem tracks_performAll_ofString (source : String) (uses : List Use) :
    let run := (Cursor.ofString source).performAll uses
    Tracks source.toList run.2 ∧
      InOrder source.toList 0 (run.1.flatMap Answer.read) run.2.offset := by
  obtain ⟨hin, horder⟩ := (StandsIn.ofString source).performAll uses
  exact ⟨hin.tracks, horder⟩

/-- A look too far back, and tokens begun in the middle of a name and of a number. -/
example :
    let uses : List Use :=
      [.look (-16), .advance, .nextToken, .advance, .advance, .nextToken, .tokens]
    let run := (Cursor.ofString "pop 12\n/ 3 // 4").performAll uses
    run.1.flatMap Answer.read =
      [⟨.identifier, "op", ⟨0, 1⟩⟩, ⟨.number, "2", ⟨0, 5⟩⟩, ⟨.symbol, "/", ⟨1, 0⟩⟩,
        ⟨.number, "3", ⟨1, 2⟩⟩, ⟨.endOfText, "", ⟨1, 8⟩⟩] ∧ run.2.position = ⟨1, 8⟩ := by
  cbv

end Cursor

end HackVm
