import HackVm.Proofs.Command.Mistakes
import HackVm.Proofs.Token.Places

set_option autoImplicit false

/-! # One attempt behind the other

After an error reading can go on behind the tokens that were taken, so a reader is asked for
commands again and again whatever comes of it. It stays inside its text: what it has left is
always the end of the tokens (`Reader.Within`). One attempt keeps that (`Within.took`), and so does
any number of them (`within_afterAttempts`). -/

namespace HackVm

namespace Reader

/-- The reader behind `n` attempts at a command, each made whatever came of the one before. -/
def afterAttempts (r : Reader) : Nat → Reader
  | 0 => r
  | n + 1 => ((r.afterAttempts n).run Reading.next).2

/-- What the attempt behind `n` others gives. -/
def attempt (r : Reader) (n : Nat) : Except ReadError (Option Statement) :=
  ((r.afterAttempts n).run Reading.next).1

/-- A reader of a text, with the end of the tokens left. -/
structure Within (source unit : String) (r : Reader) : Prop where
  unit : r.unit = unit
  left : r.left <:+ tokenize source

variable {source unit : String} {r r' : Reader} {ts : List Token}

theorem left_ofString (source unit : String) : (ofString source unit).left = tokenize source :=
  ((Cursor.ofString source).dropLast_tokens).symm

theorem within_ofString (source unit : String) : Within source unit (ofString source unit) :=
  ⟨rfl, (left_ofString source unit) ▸ List.suffix_rfl⟩

theorem Within.genuine (h : Within source unit r) : r.Genuine := by
  obtain ⟨earlier, hearlier⟩ := h.left
  intro t ht
  have hmem : t ∈ (tokenize source).dropLast := by
    rw [← hearlier, Reader.left, ← List.append_assoc, List.dropLast_concat]
    exact List.mem_append_right earlier ht
  exact wellFormed_of_mem_dropLast hmem

theorem Within.took (h : Within source unit r) (htook : r.Took ts r') : Within source unit r' := by
  refine ⟨htook.unit.trans h.unit, List.IsSuffix.trans ?_ h.left⟩
  rw [Reader.left, Reader.left, htook.pending, htook.finish]
  exact ⟨r.pending.take ts.length, by rw [← List.append_assoc, List.take_append_drop]⟩

/-- An attempt takes tokens, whatever comes of it. -/
theorem exists_took {result : Except ReadError (Option Statement)} (h : Attempt r result r') :
    ∃ ts, r.Took ts r' := by
  cases h with
  | finished => exact ⟨_, took_behind List.prefix_rfl⟩
  | failed mistake took context => exact ⟨_, took⟩
  | read spelled pending position resolved took => exact ⟨_, took⟩

/-- No number of attempts leads out of the text. The induction is on the attempts. -/
theorem within_afterAttempts (source unit : String) (n : Nat) :
    Within source unit ((ofString source unit).afterAttempts n) := by
  induction n with
  | zero => exact within_ofString source unit
  | succ n ih =>
    obtain ⟨ts, htook⟩ := exists_took (Reading.attempt_run_next ih.genuine)
    exact ih.took htook

end Reader

end HackVm
