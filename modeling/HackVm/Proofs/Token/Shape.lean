import HackVm.Token.Cursor
import Mathlib.Data.List.TakeWhile

set_option autoImplicit false

/-! # The shape of tokens

The kind of a token fixes what its text looks like: a name begins with a letter, a number consists
of digits, and a symbol is a single character that begins neither. So the text tells the kind
(`kind_eq_symbol`, `kind_eq_identifier`), and only the last token of a text stands
for its end (`filter_tokenize`). -/

namespace HackVm

open Text

/-- A text that can be a name in a program. -/
def IsName (s : String) : Prop :=
  ∃ c cs, s.toList = c :: cs ∧ c.isAlpha = true ∧ ∀ d ∈ cs, isNamePart d = true

/-- The text of a token looks as its kind says. -/
def Token.WellFormed (t : Token) : Prop :=
  match t.kind with
  | .identifier => IsName t.text
  | .number => t.text ≠ "" ∧ ∀ c ∈ t.text.toList, c.isDigit = true
  | .symbol => ∃ c, t.text = String.singleton c ∧ c.isDigit = false ∧ c.isAlpha = false
  | .endOfText => t.text = ""

/-! ## Tokens of a text -/

theorem takeWhile_eq_cons {p : Char → Bool} {c : Char} {cs : List Char} (h : p c = true) :
    (c :: cs).takeWhile p = c :: cs.takeWhile p := by
  rw [List.takeWhile_cons, if_pos h]

theorem Cursor.wellFormed_nextToken (c : Cursor) : c.nextToken.1.WellFormed := by
  unfold Cursor.nextToken
  simp only
  split
  · rfl
  · rename_i ch rest hrest
    split
    · rename_i hdigit
      refine ⟨?_, ?_⟩
      · intro h
        have hlist := congrArg String.toList h
        simp [Cursor.readNumber, Cursor.readWhile, hrest, takeWhile_eq_cons hdigit] at hlist
      · intro d hd
        simp only [Cursor.readNumber, Cursor.readWhile, String.toList_ofList] at hd
        exact List.mem_takeWhile_imp hd
    split
    · rename_i halpha
      refine ⟨ch, rest.takeWhile isNamePart, ?_, halpha, fun d hd => List.mem_takeWhile_imp hd⟩
      simp only [Cursor.readName, Cursor.readWhile, String.toList_ofList]
      rw [hrest, takeWhile_eq_cons (isNamePart_of_isAlpha halpha)]
    · rename_i hdigit halpha
      exact ⟨ch, rfl, Bool.eq_false_iff.mpr hdigit, Bool.eq_false_iff.mpr halpha⟩

/-- The tokens that are left end in the only one for the end of the text. -/
theorem Cursor.tokens_eq (c : Cursor) :
    ∃ init last, c.tokens.1 = init ++ [last] ∧ last.kind = .endOfText ∧
      ∀ t ∈ init, t.kind ≠ .endOfText ∧ t.WellFormed := by
  fun_induction Cursor.tokens c with
  | case1 c step h => exact ⟨[], step.1, rfl, h, fun t ht => by cases ht⟩
  | case2 c step h others ih =>
    obtain ⟨init, last, htokens, hlast, hinit⟩ := ih
    refine ⟨step.1 :: init, last, congrArg (step.1 :: ·) htokens, hlast, ?_⟩
    intro t ht
    rcases List.mem_cons.mp ht with rfl | ht
    · exact ⟨h, c.wellFormed_nextToken⟩
    · exact hinit t ht

theorem wellFormed_of_mem_dropLast {source : String} {t : Token}
    (h : t ∈ (tokenize source).dropLast) : t.kind ≠ .endOfText ∧ t.WellFormed := by
  obtain ⟨init, last, htokens, -, hinit⟩ := (Cursor.ofString source).tokens_eq
  rw [tokenize, htokens, List.dropLast_concat] at h
  exact hinit t h

/-- The tokens of a text but the last are those that do not stand for its end. -/
theorem filter_tokenize (source : String) :
    (tokenize source).filter (fun t => decide (t.kind ≠ .endOfText)) =
      (tokenize source).dropLast := by
  obtain ⟨init, last, htokens, hlast, hinit⟩ := (Cursor.ofString source).tokens_eq
  rw [tokenize, htokens, List.dropLast_concat, List.filter_append,
    List.filter_eq_self.mpr (fun t ht => decide_eq_true (hinit t ht).1),
    List.filter_cons_of_neg (by simp [hlast]), List.filter_nil, List.append_nil]

/-! ## What a text says about its kind -/

/-- A single character that begins neither a number nor a name is a symbol. -/
theorem Token.WellFormed.kind_eq_symbol {t : Token} (h : t.WellFormed) {c : Char}
    (htext : t.text = String.singleton c) (hdigit : c.isDigit = false)
    (halpha : c.isAlpha = false) : t.kind = .symbol := by
  have hlist : t.text.toList = [c] := by rw [htext, String.toList_singleton]
  unfold Token.WellFormed at h
  cases hkind : t.kind with
  | symbol => rfl
  | identifier =>
    rw [hkind] at h
    obtain ⟨d, ds, hd, hstart, -⟩ := h
    obtain ⟨rfl, -⟩ := List.cons.inj (hlist.symm.trans hd)
    exact absurd hstart (Bool.eq_false_iff.mp halpha)
  | number =>
    rw [hkind] at h
    exact absurd (h.2 c (by rw [hlist]; exact List.mem_singleton_self c))
      (Bool.eq_false_iff.mp hdigit)
  | endOfText =>
    rw [hkind] at h
    rw [h] at hlist
    cases hlist

/-- A text of several characters, the first of which is a letter, is a name. -/
theorem Token.WellFormed.kind_eq_identifier {t : Token} (h : t.WellFormed) {c d : Char}
    {cs : List Char} (htext : t.text.toList = c :: d :: cs) (halpha : c.isAlpha = true) :
    t.kind = .identifier := by
  unfold Token.WellFormed at h
  cases hkind : t.kind with
  | identifier => rfl
  | symbol =>
    rw [hkind] at h
    obtain ⟨e, he, -⟩ := h
    rw [he, String.toList_singleton] at htext
    cases htext
  | number =>
    rw [hkind] at h
    have hdigit := h.2 c (by rw [htext]; exact List.mem_cons_self)
    rw [isDigit_eq_false_of_isAlpha halpha] at hdigit
    cases hdigit
  | endOfText =>
    rw [hkind] at h
    rw [h] at htext
    cases htext

end HackVm
