set_option autoImplicit false

/-! # Character classes

Three classes decide where a token begins and ends. Letters and digits are the ASCII ones,
`Char.isAlpha` and `Char.isDigit`; blanks and controls are taken from all of Unicode. The lemmas
say that the classes a scanner chooses between do not overlap.

A command line knows numbers in the digits of all scripts. Unicode 14 gives each script with
decimal digits a run of ten code points, zero to nine, and the runs are listed by their zeros. -/

namespace HackVm.Text

/-- Blanks separate tokens: the spaces of every script, the line and paragraph separators, the
tabs and line ends, and the four information separators U+001C to U+001F. -/
def isBlank (c : Char) : Bool :=
  let n := c.toNat
  (0x09 ≤ n && n ≤ 0x0d) || (0x1c ≤ n && n ≤ 0x20) || n == 0x85 || n == 0xa0 || n == 0x1680
    || (0x2000 ≤ n && n ≤ 0x200a) || n == 0x2028 || n == 0x2029 || n == 0x202f || n == 0x205f
    || n == 0x3000

/-- Controls end a comment: the two blocks U+0000 to U+001F and U+007F to U+009F. -/
def isControl (c : Char) : Bool :=
  c.toNat ≤ 0x1f || (0x7f ≤ c.toNat && c.toNat ≤ 0x9f)

/-- A name goes on with ASCII letters, ASCII digits, `_`, `.` and `$`. -/
def isNamePart (c : Char) : Bool :=
  c.isDigit || c.isAlpha || c == '_' || c == '.' || c == '$'

/-- The code points of the zeros, in rising order. -/
def digitZeros : List Nat := [
  0x30, 0x660, 0x6f0, 0x7c0, 0x966, 0x9e6, 0xa66, 0xae6, 0xb66, 0xbe6, 0xc66, 0xce6, 0xd66,
  0xde6, 0xe50, 0xed0, 0xf20, 0x1040, 0x1090, 0x17e0, 0x1810, 0x1946, 0x19d0, 0x1a80, 0x1a90,
  0x1b50, 0x1bb0, 0x1c40, 0x1c50, 0xa620, 0xa8d0, 0xa900, 0xa9d0, 0xa9f0, 0xaa50, 0xabf0, 0xff10,
  0x104a0, 0x10d30, 0x11066, 0x110f0, 0x11136, 0x111d0, 0x112f0, 0x11450, 0x114d0, 0x11650,
  0x116c0, 0x11730, 0x118e0, 0x11950, 0x11c50, 0x11d50, 0x11da0, 0x16a60, 0x16ac0, 0x16b50,
  0x1d7ce, 0x1d7d8, 0x1d7e2, 0x1d7ec, 0x1d7f6, 0x1e140, 0x1e2f0, 0x1e950, 0x1fbf0]

/-- Whether a character is a decimal digit of some script. -/
def isDecimalDigit (c : Char) : Bool :=
  digitZeros.any fun first => first ≤ c.toNat && c.toNat ≤ first + 9

/-! ## Classes that do not overlap -/

theorem toNat_of_isDigit {c : Char} (h : c.isDigit) : 0x30 ≤ c.toNat ∧ c.toNat ≤ 0x39 := by
  simp only [Char.isDigit, Bool.and_eq_true, decide_eq_true_eq] at h
  exact ⟨UInt32.le_iff_toNat_le.mp h.1, UInt32.le_iff_toNat_le.mp h.2⟩

theorem toNat_of_isAlpha {c : Char} (h : c.isAlpha) :
    (0x41 ≤ c.toNat ∧ c.toNat ≤ 0x5a) ∨ (0x61 ≤ c.toNat ∧ c.toNat ≤ 0x7a) := by
  have hcases : (c.isUpper || c.isLower) = true := h
  rcases Bool.or_eq_true_iff.mp hcases with h | h
  · have hupper : 'A'.val ≤ c.val ∧ c.val ≤ 'Z'.val := of_decide_eq_true h
    exact .inl ⟨UInt32.le_iff_toNat_le.mp hupper.1, UInt32.le_iff_toNat_le.mp hupper.2⟩
  · have hlower : (decide ('a'.val ≤ c.val) && decide (c.val ≤ 'z'.val)) = true := h
    rw [Bool.and_eq_true, decide_eq_true_eq, decide_eq_true_eq] at hlower
    exact .inr ⟨UInt32.le_iff_toNat_le.mp hlower.1, UInt32.le_iff_toNat_le.mp hlower.2⟩

theorem isBlank_eq_false_of_isDigit {c : Char} (h : c.isDigit) : isBlank c = false := by
  have := toNat_of_isDigit h
  simp [isBlank]
  omega

theorem isBlank_eq_false_of_isAlpha {c : Char} (h : c.isAlpha) : isBlank c = false := by
  have := toNat_of_isAlpha h
  simp [isBlank]
  omega

theorem isDigit_eq_false_of_isAlpha {c : Char} (h : c.isAlpha) : c.isDigit = false := by
  have := toNat_of_isAlpha h
  cases hd : c.isDigit with
  | false => rfl
  | true => have := toNat_of_isDigit hd; omega

theorem isNamePart_of_isDigit {c : Char} (h : c.isDigit) : isNamePart c := by
  simp [isNamePart, h]

theorem isNamePart_of_isAlpha {c : Char} (h : c.isAlpha) : isNamePart c := by
  simp [isNamePart, h]

/-! ## Numerals -/

/-- Numerals are made of digits. -/
theorem isDigit_of_mem_toString {n : Nat} {c : Char} (h : c ∈ (toString n).toList) :
    c.isDigit = true := by
  rw [Nat.toString_eq_ofList_toDigits, String.toList_ofList] at h
  exact Nat.isDigit_of_mem_toDigits (by decide) (by decide) h

/-- A negative number is written with a sign and its amount. -/
theorem toList_toString_negSucc (n : Nat) :
    (toString (Int.negSucc n)).toList = '-' :: (toString (n + 1)).toList := by
  show ("-" ++ toString (n + 1)).toList = _
  rw [String.toList_append]
  rfl

end HackVm.Text
