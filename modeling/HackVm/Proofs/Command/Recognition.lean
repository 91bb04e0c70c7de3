import HackVm.Proofs.Command.Grammar

set_option autoImplicit false

/-! # Reading recognizes the grammar

A step of a reader recognizes a language if it succeeds exactly on the rows of tokens in that
language, takes them, and leaves everything else alone (`Recognizes`). Languages of steps in a row
are put together by `Recognizes.bind`, and `recognizes_instruction` says that reading an instruction
recognizes its spelling. A whole unit is then read by induction on its phrases
(`readUnit_eq_ok_iff`). -/

namespace HackVm

/-- The tokens of a text, without the one for its end. -/
def Reader.Genuine (r : Reader) : Prop :=
  ∀ t ∈ r.pending, t.kind ≠ .endOfText ∧ t.WellFormed

theorem Reader.Genuine.append {r r' : Reader} {ts : List Token} (h : r.Genuine)
    (hr : r.pending = ts ++ r'.pending) : r'.Genuine :=
  fun t ht => h t (hr ▸ List.mem_append_right ts ht)

/-- Two readers in the same scope, behind the same declarations. -/
structure Reader.SameContext (r r' : Reader) : Prop where
  scope : r'.scope = r.scope
  declared : r'.declared = r.declared

theorem Reader.SameContext.trans {r r' r'' : Reader} (h : r.SameContext r')
    (h' : r'.SameContext r'') : r.SameContext r'' :=
  ⟨h'.scope.trans h.scope, h'.declared.trans h.declared⟩

namespace Reading

variable {α β : Type}

/-- A step that succeeds exactly on the rows of tokens in a language, given for each result. -/
structure Recognizes (step : Reading α) (L : α → List Token → Prop) : Prop where
  sound : ∀ {r : Reader} {a : α} {r' : Reader}, r.Genuine → r.run step = (.ok a, r') →
    ∃ ts, L a ts ∧ r.pending = ts ++ r'.pending ∧ r.SameContext r'
  complete : ∀ {r : Reader} {a : α} {ts rest : List Token}, r.Genuine → L a ts →
    r.pending = ts ++ rest → ∃ r', r.run step = (.ok a, r') ∧ r'.pending = rest ∧
      r.SameContext r'

namespace Recognizes

variable {step : Reading α} {L M : α → List Token → Prop}

theorem pure (a : α) : Recognizes (Pure.pure a) fun b ts => b = a ∧ ts = [] := by
  refine ⟨fun {r b r'} _ h => ?_, fun {r b ts rest} _ hb hr => ?_⟩
  · obtain ⟨hb, hr⟩ := Prod.mk.inj h
    cases hb
    cases hr
    exact ⟨[], ⟨rfl, rfl⟩, rfl, rfl, rfl⟩
  · obtain ⟨rfl, rfl⟩ := hb
    exact ⟨r, rfl, hr, rfl, rfl⟩

/-- A step that always fails recognizes nothing. -/
theorem fail (h : ∀ r : Reader, ∃ e r', r.run step = (.error e, r')) :
    Recognizes step fun _ _ => False := by
  refine ⟨fun {r a r'} _ hrun => ?_, fun _ hfalse => hfalse.elim⟩
  obtain ⟨e, r'', he⟩ := h r
  rw [he] at hrun
  cases hrun

theorem bind {f : α → Reading β} {N : α → β → List Token → Prop} (hs : Recognizes step L)
    (hf : ∀ a, Recognizes (f a) (N a)) :
    Recognizes (step >>= f) fun b ts => ∃ a xs ys, ts = xs ++ ys ∧ L a xs ∧ N a b ys := by
  refine ⟨fun {r b r'} hr h => ?_, fun {r b ts rest} hr hL hpending => ?_⟩
  · rw [run_bind] at h
    split at h
    · rename_i a r₁ hstep
      obtain ⟨xs, hxs, hpending, hscope⟩ := hs.sound hr hstep
      obtain ⟨ys, hys, hpending', hscope'⟩ := (hf a).sound (hr.append hpending) h
      refine ⟨xs ++ ys, ⟨a, xs, ys, rfl, hxs, hys⟩, ?_, hscope.trans hscope'⟩
      rw [hpending, hpending', List.append_assoc]
    · cases h
  · obtain ⟨a, xs, ys, rfl, hxs, hys⟩ := hL
    rw [List.append_assoc] at hpending
    obtain ⟨r₁, hstep, hpending₁, hscope₁⟩ := hs.complete hr hxs hpending
    obtain ⟨r', hrun, hpending', hscope'⟩ :=
      (hf a).complete (hr.append (hpending₁ ▸ hpending)) hys hpending₁
    refine ⟨r', ?_, hpending', hscope₁.trans hscope'⟩
    rw [run_bind, hstep]
    exact hrun

/-- Languages need to agree on tokens of a text only. -/
theorem congr (hs : Recognizes step L)
    (hLM : ∀ a ts, (∀ t ∈ ts, t.WellFormed) → (L a ts ↔ M a ts)) : Recognizes step M := by
  refine ⟨fun {r a r'} hr h => ?_, fun {r a ts rest} hr hM hpending => ?_⟩
  · obtain ⟨ts, hts, hpending, hscope⟩ := hs.sound hr h
    have hwell : ∀ t ∈ ts, t.WellFormed :=
      fun t ht => (hr t (hpending ▸ List.mem_append_left _ ht)).2
    exact ⟨ts, (hLM a ts hwell).mp hts, hpending, hscope⟩
  · have hwell : ∀ t ∈ ts, t.WellFormed :=
      fun t ht => (hr t (hpending ▸ List.mem_append_left _ ht)).2
    exact hs.complete hr ((hLM a ts hwell).mpr hM) hpending

end Recognizes

/-! ## Single tokens -/

theorem recognizes_complain (token : Option Token) (c : Complaint) :
    Recognizes (complain token c : Reading α) fun _ _ => False :=
  .fail fun r => ⟨_, _, run_complain r token c⟩

theorem recognizes_unexpected (what : String) (got : Token) :
    Recognizes (unexpected what got : Reading α) fun _ _ => False := by
  unfold unexpected
  split <;> exact recognizes_complain _ _

/-- A step that takes one token and looks at it. At the end of the text it sees a token for the
end, on which it must not succeed. -/
theorem recognizes_advance {f : Token → Reading α} {L : Token → α → Prop}
    (hf : ∀ t, Recognizes (f t) fun a ts => ts = [] ∧ L t a)
    (hend : ∀ t a, t.text = "" → t.kind = .endOfText → ¬ L t a) :
    Recognizes (advance >>= f) fun a ts => ∃ t, ts = [t] ∧ L t a := by
  refine ⟨fun {r a r'} hr h => ?_, fun {r a ts rest} hr hL hpending => ?_⟩
  · rw [run_bind, run_advance] at h
    have hgenuine : r.take.2.Genuine := by
      intro t ht
      rw [pending_take] at ht
      exact hr t (List.mem_of_mem_tail ht)
    obtain ⟨ts, ⟨rfl, hL⟩, hrest, hscope⟩ := (hf r.take.1).sound hgenuine h
    rw [pending_take, List.nil_append] at hrest
    cases hpending : r.pending with
    | nil =>
      have htake : r.take.1 = ⟨.endOfText, "", r.finish⟩ := by simp [Reader.take, hpending]
      rw [htake] at hL
      exact absurd hL (hend _ a rfl rfl)
    | cons t pending =>
      have htake : r.take = (t, { r with pending, current := some t }) := by
        simp [Reader.take, hpending]
      rw [htake] at hL hscope
      rw [hpending, List.tail_cons] at hrest
      exact ⟨[t], ⟨t, rfl, hL⟩, by rw [hrest]; rfl, ⟨hscope.scope, hscope.declared⟩⟩
  · obtain ⟨t, rfl, hL⟩ := hL
    have htake : r.take = (t, { r with pending := rest, current := some t }) := by
      simp [Reader.take, hpending]
    have hgenuine : r.take.2.Genuine := by
      intro u hu
      rw [pending_take] at hu
      exact hr u (List.mem_of_mem_tail hu)
    have hrest : r.take.2.pending = [] ++ rest := by rw [htake]; rfl
    obtain ⟨r', hrun, hpending', hscope⟩ :=
      (hf r.take.1).complete hgenuine ⟨rfl, by rw [htake]; exact hL⟩ hrest
    refine ⟨r', ?_, hpending', ?_⟩
    · rw [run_bind, run_advance]
      exact hrun
    · rw [htake] at hscope
      exact ⟨hscope.scope, hscope.declared⟩

theorem recognizes_word (what : String) :
    Recognizes (word what) fun a ts => ∃ t, ts = [t] ∧ a = t ∧ t.kind = .identifier := by
  refine recognizes_advance (fun t => ?_) fun t a _ hkind h => ?_
  · split
    · rename_i hkind
      exact (Recognizes.pure t).congr fun a ts _ => by simp [hkind, and_comm]
    · rename_i hkind
      exact (recognizes_unexpected what t).congr fun a ts _ => by simp [hkind]
  · rw [hkind] at h
    exact absurd h.2 (by decide)

theorem recognizes_number (what : String) :
    Recognizes (number what) fun n ts =>
      ∃ t, ts = [t] ∧ t.kind = .number ∧ IsNumeral t.text n := by
  refine recognizes_advance (fun t => ?_) fun t a _ hkind h => ?_
  · split
    · rename_i hkind
      dsimp only
      split
      · rename_i hlong
        refine (Recognizes.fail fun r => ⟨_, r, rfl⟩).congr fun n ts _ => ?_
        simp only [false_iff]
        rintro ⟨-, -, hn⟩
        exact absurd hn.length (Nat.not_le.mpr hlong)
      rename_i hshort
      split
      · rename_i hbig
        refine (recognizes_complain none _).congr fun n ts _ => ?_
        simp only [false_iff]
        rintro ⟨-, -, hn⟩
        exact absurd hn.bound (Nat.not_le.mpr (hn.value ▸ hbig))
      · rename_i hsmall
        refine (Recognizes.pure _).congr fun n ts _ => ?_
        constructor
        · rintro ⟨rfl, rfl⟩
          exact ⟨rfl, hkind, ⟨Nat.not_lt.mp hshort, rfl, Nat.not_lt.mp hsmall⟩⟩
        · rintro ⟨rfl, -, hn⟩
          exact ⟨hn.value.symm, rfl⟩
    · rename_i hkind
      exact (recognizes_unexpected what t).congr fun a ts _ => by simp [hkind]
  · rw [hkind] at h
    exact absurd h.1 (by decide)

theorem recognizes_literal {text : String} (what : String) (htext : text ≠ "") :
    Recognizes (literal text what) fun a ts => ∃ t, ts = [t] ∧ a = t ∧ t.text = text := by
  refine recognizes_advance (fun t => ?_) fun t a hend _ h => ?_
  · split
    · rename_i heq
      exact (Recognizes.pure t).congr fun a ts _ => by simp [heq, and_comm]
    · rename_i hne
      exact (recognizes_unexpected what t).congr fun a ts _ => by simp [hne]
  · exact htext (h.2.symm.trans hend)

theorem recognizes_segment :
    Recognizes segment fun s ts => ∃ t, ts = [t] ∧ t.lexeme = (.identifier, s.keyword) := by
  unfold segment
  refine ((recognizes_word _).bind (N := fun t s ts => ts = [] ∧ t.text = s.keyword)
    fun t => ?_).congr fun s ts _ => ?_
  · cases hs : Segment.ofKeyword? t.text with
    | none =>
      refine (recognizes_complain none _).congr fun s ts _ => ?_
      simp only [false_iff]
      rintro ⟨-, htext⟩
      rw [Segment.ofKeyword?_eq_some_iff.mpr htext] at hs
      cases hs
    | some s =>
      have htext := Segment.ofKeyword?_eq_some_iff.mp hs
      refine (Recognizes.pure s).congr fun s' ts _ => ?_
      constructor
      · rintro ⟨rfl, rfl⟩
        exact ⟨rfl, htext⟩
      · rintro ⟨rfl, htext'⟩
        rw [Segment.ofKeyword?_eq_some_iff.mpr htext'] at hs
        exact ⟨Option.some.inj hs, rfl⟩
  · constructor
    · rintro ⟨_, _, _, rfl, ⟨t, rfl, rfl, hkind⟩, rfl, htext⟩
      exact ⟨_, rfl, Prod.ext hkind htext⟩
    · rintro ⟨t, rfl, ht⟩
      obtain ⟨hkind, htext⟩ := Prod.mk.inj ht
      exact ⟨t, [t], [], rfl, ⟨t, rfl, rfl, hkind⟩, rfl, htext⟩

/-! ## Operands -/

theorem recognizes_segment_number (f : Segment → Nat → Instruction) (what : String) :
    Recognizes (segment >>= fun s => number what >>= fun n => return f s n) fun i ts =>
      ∃ s n numeral, i = f s n ∧ IsNumeral numeral n ∧
        ts.map Token.lexeme = [(.identifier, s.keyword), (.number, numeral)] := by
  refine (recognizes_segment.bind fun s => (recognizes_number what).bind fun n =>
    Recognizes.pure (f s n)).congr fun i ts _ => ?_
  constructor
  · rintro ⟨s, _, _, rfl, ⟨t, rfl, ht⟩, n, _, _, rfl, ⟨u, rfl, hkind, hu⟩, rfl, rfl⟩
    obtain ⟨htkind, httext⟩ := Prod.mk.inj ht
    exact ⟨s, n, u.text, rfl, hu, by simp [Token.lexeme, htkind, httext, hkind]⟩
  · rintro ⟨s, n, numeral, rfl, hn, hts⟩
    obtain ⟨t, ts, rfl, ht, hts⟩ := List.map_eq_cons_iff.mp hts
    obtain ⟨u, ts, rfl, hu, hts⟩ := List.map_eq_cons_iff.mp hts
    obtain rfl := List.map_eq_nil_iff.mp hts
    obtain ⟨hkind, rfl⟩ := Prod.mk.inj hu
    exact ⟨s, [t], [u], rfl, ⟨t, rfl, ht⟩, n, [u], [], rfl, ⟨u, rfl, hkind, hn⟩, rfl, rfl⟩

theorem recognizes_word_number (f : String → Nat → Instruction) (what what' : String) :
    Recognizes (word what >>= fun t => number what' >>= fun n => return f t.text n) fun i ts =>
      ∃ name n numeral, i = f name n ∧ IsNumeral numeral n ∧
        ts.map Token.lexeme = [(.identifier, name), (.number, numeral)] := by
  refine ((recognizes_word what).bind fun t => (recognizes_number what').bind fun n =>
    Recognizes.pure (f t.text n)).congr fun i ts _ => ?_
  constructor
  · rintro ⟨t, _, _, rfl, ⟨_, rfl, rfl, ht⟩, n, _, _, rfl, ⟨u, rfl, hkind, hu⟩, rfl, rfl⟩
    exact ⟨t.text, n, u.text, rfl, hu, by simp [ht, Token.lexeme, hkind]⟩
  · rintro ⟨name, n, numeral, rfl, hn, hts⟩
    obtain ⟨t, ts, rfl, ht, hts⟩ := List.map_eq_cons_iff.mp hts
    obtain ⟨u, ts, rfl, hu, hts⟩ := List.map_eq_cons_iff.mp hts
    obtain rfl := List.map_eq_nil_iff.mp hts
    obtain ⟨hkind, rfl⟩ := Prod.mk.inj ht
    obtain ⟨hkind', rfl⟩ := Prod.mk.inj hu
    exact ⟨t, [t], [u], rfl, ⟨t, rfl, rfl, hkind⟩, n, [u], [], rfl, ⟨u, rfl, hkind', hn⟩, rfl,
      rfl⟩

theorem recognizes_word_only (f : String → Instruction) (what : String) :
    Recognizes (word what >>= fun t => return f t.text) fun i ts =>
      ∃ name, i = f name ∧ ts.map Token.lexeme = [(.identifier, name)] := by
  refine ((recognizes_word what).bind fun t => Recognizes.pure (f t.text)).congr fun i ts _ => ?_
  constructor
  · rintro ⟨t, _, _, rfl, ⟨_, rfl, rfl, ht⟩, rfl, rfl⟩
    exact ⟨t.text, rfl, by simp [ht, Token.lexeme]⟩
  · rintro ⟨name, rfl, hts⟩
    obtain ⟨t, ts, rfl, ht, hts⟩ := List.map_eq_cons_iff.mp hts
    obtain rfl := List.map_eq_nil_iff.mp hts
    obtain ⟨hkind, rfl⟩ := Prod.mk.inj ht
    exact ⟨t, [t], [], rfl, ⟨t, rfl, rfl, hkind⟩, rfl, rfl⟩

/-- The text of a literal fixes its kind, as tokens are well-formed. -/
theorem recognizes_ifGoto (what what' : String) :
    Recognizes (literal "-" what >>= fun _ => literal "goto" what >>= fun _ =>
      word what' >>= fun t => return Instruction.ifGoto t.text) fun i ts =>
      ∃ name, i = .ifGoto name ∧
        ts.map Token.lexeme = [(.symbol, "-"), (.identifier, "goto"), (.identifier, name)] := by
  refine ((recognizes_literal what (by decide)).bind fun _ =>
    (recognizes_literal what (by decide)).bind fun _ =>
      recognizes_word_only Instruction.ifGoto what').congr fun i ts hwell => ?_
  constructor
  · rintro ⟨t, _, _, rfl, ⟨_, rfl, rfl, ht⟩, u, _, _, rfl, ⟨_, rfl, rfl, hu⟩, name, rfl, hts⟩
    have hdash := (hwell t (by simp)).kind_eq_symbol (c := '-') ht (by decide) (by decide)
    have hgoto := (hwell u (by simp)).kind_eq_identifier (c := 'g')
      (congrArg String.toList hu) (by decide)
    exact ⟨name, rfl, by simp [hts, Token.lexeme, ht, hu, hdash, hgoto]⟩
  · rintro ⟨name, rfl, hts⟩
    obtain ⟨t, ts, rfl, ht, hts⟩ := List.map_eq_cons_iff.mp hts
    obtain ⟨u, ts, rfl, hu, hts⟩ := List.map_eq_cons_iff.mp hts
    obtain ⟨-, ht⟩ := Prod.mk.inj ht
    obtain ⟨-, hu⟩ := Prod.mk.inj hu
    exact ⟨t, [t], u :: ts, rfl, ⟨t, rfl, rfl, ht⟩, u, [u], ts, rfl, ⟨u, rfl, rfl, hu⟩, name, rfl,
      hts⟩

/-! ## Instructions -/

/-- The keyword of an operation is the first word of that operation only. -/
theorem eq_arithmetic_of_keyword {i : Instruction} {op : Operation}
    (h : i.keyword = op.keyword) : i = .arithmetic op := by
  cases i with
  | arithmetic op' =>
    have hop : Operation.ofKeyword? op'.keyword = some op :=
      Operation.ofKeyword?_eq_some_iff.mpr h
    rw [Operation.ofKeyword?_eq_some_iff.mpr rfl] at hop
    exact congrArg _ (Option.some.inj hop)
  | _ => cases op <;> simp [Instruction.keyword, Operation.keyword] at h

theorem keyword_ne_of_ofKeyword? {s : String} (h : Operation.ofKeyword? s = none)
    (op : Operation) : op.keyword ≠ s := by
  intro hop
  rw [Operation.ofKeyword?_eq_some_iff.mpr hop.symm] at h
  cases h

/-- Reading an instruction recognizes how it is spelled. -/
theorem recognizes_instruction (head : Token) :
    Recognizes (instruction head) fun i ts =>
      i.keyword = head.text ∧ i.SpelledOperands (ts.map Token.lexeme) := by
  unfold instruction
  split
  · rename_i op hop
    have htext := Operation.ofKeyword?_eq_some_iff.mp hop
    refine (Recognizes.pure _).congr fun i ts _ => ?_
    constructor
    · rintro ⟨rfl, rfl⟩
      exact ⟨htext.symm, rfl⟩
    · rintro ⟨hkeyword, hoperands⟩
      obtain rfl := eq_arithmetic_of_keyword (hkeyword.trans htext)
      exact ⟨rfl, List.map_eq_nil_iff.mp hoperands⟩
  rename_i hnone
  have hop := keyword_ne_of_ofKeyword? hnone
  -- the first word leaves one form of instruction, so only its operands are compared
  split
  all_goals rename_i htext
  · refine (recognizes_segment_number _ _).congr fun i ts _ => ?_
    rw [htext] at hop ⊢
    cases i <;> simp [Instruction.keyword, Instruction.SpelledOperands, hop, and_assoc]
  · refine (recognizes_segment_number _ _).congr fun i ts _ => ?_
    rw [htext] at hop ⊢
    cases i <;> simp [Instruction.keyword, Instruction.SpelledOperands, hop, and_assoc]
  · refine (recognizes_word_only _ _).congr fun i ts _ => ?_
    rw [htext] at hop ⊢
    cases i <;> simp [Instruction.keyword, Instruction.SpelledOperands, hop]
  · refine (recognizes_word_only _ _).congr fun i ts _ => ?_
    rw [htext] at hop ⊢
    cases i <;> simp [Instruction.keyword, Instruction.SpelledOperands, hop]
  · refine (recognizes_ifGoto _ _).congr fun i ts _ => ?_
    rw [htext] at hop ⊢
    cases i <;> simp [Instruction.keyword, Instruction.SpelledOperands, hop]
  · refine (recognizes_word_number _ _ _).congr fun i ts _ => ?_
    rw [htext] at hop ⊢
    cases i <;> simp [Instruction.keyword, Instruction.SpelledOperands, hop, and_assoc]
  · refine (recognizes_word_number _ _ _).congr fun i ts _ => ?_
    rw [htext] at hop ⊢
    cases i <;> simp [Instruction.keyword, Instruction.SpelledOperands, hop, and_assoc]
  · refine (Recognizes.pure _).congr fun i ts _ => ?_
    rw [htext] at hop ⊢
    cases i <;> simp [Instruction.keyword, Instruction.SpelledOperands, hop]
  · refine (recognizes_complain _ _).congr fun i ts _ => ?_
    simp only [false_iff, not_and]
    intro hkeyword
    cases i <;> simp_all [Instruction.keyword, eq_comm]

/-! ## Commands -/

/-- The functions declared behind an instruction. -/
def Reader.declaredWith (r : Reader) (i : Instruction) : List String :=
  match i.declares? with
  | some name => if name ∈ r.declared then r.declared else r.declared ++ [name]
  | none => r.declared

theorem mem_declaredWith {r : Reader} {i : Instruction} {name : String} :
    name ∈ Reader.declaredWith r i ↔ name ∈ r.declared ∨ i.declares? = some name := by
  unfold Reader.declaredWith
  cases i.declares? with
  | none => simp
  | some f =>
    dsimp only
    split
    · rename_i hf
      refine ⟨.inl, ?_⟩
      rintro (hname | hname)
      · exact hname
      · exact Option.some.inj hname ▸ hf
    · simp [eq_comm]

/-- No function is listed twice. -/
theorem nodup_declaredWith {r : Reader} (h : r.declared.Nodup) (i : Instruction) :
    (Reader.declaredWith r i).Nodup := by
  unfold Reader.declaredWith
  cases i.declares? with
  | none => exact h
  | some f =>
    dsimp only
    split
    · exact h
    · rename_i hf
      refine List.nodup_append.mpr ⟨h, List.pairwise_singleton _ f, fun g hg f' hf' hsame => ?_⟩
      obtain rfl := List.mem_singleton.mp hf'
      exact hf (hsame ▸ hg)

/-- An instruction that can be completed moves the scope and enters the function it declares; one
that cannot is complained about at its first word. -/
theorem run_settle (r : Reader) (i : Instruction) :
    r.run (settle i) =
      match i.resolve r.scope with
      | .ok (c, scope) => (.ok c, { r with scope, declared := Reader.declaredWith r i })
      | .error cause => r.run (complain r.head (.outsideFunction cause.subject)) := by
  unfold settle
  rw [run_bind, run_get]
  dsimp only
  cases i.resolve r.scope with
  | ok result => rfl
  | error cause => rfl

theorem run_settle_of_resolve {r : Reader} {i : Instruction} {c : Command}
    {scope : Option Scope} (h : i.resolve r.scope = .ok (c, scope)) :
    r.run (settle i) = (.ok c, { r with scope, declared := Reader.declaredWith r i }) := by
  rw [run_settle, h]

/-- Completing an instruction fails just as asking for the scope that it needs: where the scope is
missing, and with the same error. -/
theorem run_settle_eq_error_iff {r r' : Reader} {i : Instruction} {e : ReadError} :
    r.run (settle i) = (.error e, r') ↔
      ∃ cause, i.resolve none = .error cause ∧
        r.run (requireScope cause.subject) = (.error e, r') := by
  cases hscope : r.scope with
  | some s =>
    -- inside a function neither fails
    obtain ⟨⟨c, scope⟩, hresolve⟩ := i.resolve_isOk s
    simp [run_settle, run_requireScope, hscope, hresolve]
  | none =>
    cases hresolve : i.resolve none with
    | ok result => simp [run_settle, hscope, hresolve]
    | error cause =>
      -- outside of any function both make the same complaint
      simp [run_settle, run_requireScope, run_complain, hscope, hresolve]

/-- A command declares what the instruction it comes from does. -/
theorem declares?_of_resolve {scope scope' : Option Scope} {i : Instruction} {c : Command}
    (h : i.resolve scope = .ok (c, scope')) : i.declares? = c.declares? := by
  cases scope with
  | none => cases i <;> cases h <;> rfl
  | some s => cases i <;> cases h <;> rfl

theorem resolve_of_run_settle {r r' : Reader} {i : Instruction} {c : Command}
    (h : r.run (settle i) = (.ok c, r')) :
    i.resolve r.scope = .ok (c, r'.scope) ∧ r'.pending = r.pending ∧
      r'.declared = Reader.declaredWith r i := by
  cases hresolve : i.resolve r.scope with
  | error cause =>
    rw [run_settle, hresolve] at h
    cases h
  | ok result =>
    obtain ⟨c', scope⟩ := result
    rw [run_settle_of_resolve hresolve] at h
    obtain ⟨hc, rfl⟩ := Prod.mk.inj h
    cases hc
    exact ⟨rfl, rfl, rfl⟩

/-- With a name in front the next command is an instruction, settled in the scope of the reader. -/
theorem run_next_cons {r : Reader} {t : Token} {pending : List Token}
    (hpending : r.pending = t :: pending) (hkind : t.kind = .identifier) :
    r.run next = Reader.run { r with pending, current := some t, head := some t }
      (instruction t >>= fun i => settle i >>= fun c => return some ⟨c, t.position⟩) := by
  have htake : r.take = (t, { r with pending, current := some t }) := by
    simp [Reader.take, hpending]
  unfold next
  rw [run_bind, run_advance, htake]
  dsimp only
  rw [hkind]
  rfl

theorem run_next_nil {r : Reader} (hpending : r.pending = []) :
    r.run next = (.ok none, r.take.2) := by
  have htake : r.take.1 = ⟨.endOfText, "", r.finish⟩ := by simp [Reader.take, hpending]
  unfold next
  rw [run_bind, run_advance, htake]
  rfl

/-- No command begins with anything but a name. -/
theorem run_next_error {r : Reader} {t : Token} {pending : List Token}
    (hpending : r.pending = t :: pending) (hkind : t.kind ≠ .identifier)
    (hend : t.kind ≠ .endOfText) : ∃ e r', r.run next = (.error e, r') := by
  have htake : r.take = (t, { r with pending, current := some t }) := by
    simp [Reader.take, hpending]
  unfold next
  rw [run_bind, run_advance, htake]
  dsimp only
  split
  · contradiction
  · contradiction
  · exact ⟨_, _, rfl⟩

/-- The next command comes from a phrase in front of the pending tokens. -/
theorem phrase_of_run_next {r r' : Reader} {s : Statement} (hr : r.Genuine)
    (h : r.run next = (.ok (some s), r')) :
    ∃ p : Phrase, p.Spelled ∧ r.pending = p.tokens ++ r'.pending ∧
      p.tokens.head?.map Token.position = some s.position ∧
      p.instruction.resolve r.scope = .ok (s.command, r'.scope) ∧
      r'.declared = Reader.declaredWith r p.instruction := by
  cases hpending : r.pending with
  | nil =>
    rw [run_next_nil hpending] at h
    cases h
  | cons t pending =>
    by_cases hkind : t.kind = .identifier
    · rw [run_next_cons hpending hkind, run_bind] at h
      have hgenuine : Reader.Genuine { r with pending, current := some t, head := some t } :=
        fun u hu => hr u (hpending ▸ List.mem_cons_of_mem t hu)
      split at h
      · rename_i i r₁ hinstruction
        obtain ⟨ts, ⟨hkeyword, hoperands⟩, hts, hscope⟩ :=
          (recognizes_instruction t).sound hgenuine hinstruction
        rw [run_bind] at h
        split at h
        · rename_i c r₂ hsettle
          obtain ⟨hresolve, hpending₂, hdeclared⟩ := resolve_of_run_settle hsettle
          obtain ⟨hs, rfl⟩ := Prod.mk.inj h
          cases hs
          refine ⟨⟨i, t :: ts⟩, ⟨ts.map Token.lexeme, ?_, hoperands⟩, ?_, rfl, ?_, ?_⟩
          · rw [List.map_cons, Token.lexeme, hkind, hkeyword]
          · rw [List.cons_append]
            exact congrArg _ (hts.trans (congrArg _ hpending₂.symm))
          · rw [← hresolve, hscope.scope]
          · rw [hdeclared, Reader.declaredWith, Reader.declaredWith, hscope.declared]
        · cases h
      · cases h
    · have hend := (hr t (hpending ▸ List.mem_cons_self)).1
      obtain ⟨e, r'', herror⟩ := run_next_error hpending hkind hend
      rw [herror] at h
      cases h

/-- A phrase in front of the pending tokens is the next command. -/
theorem run_next_of_phrase {r : Reader} {p : Phrase} {rest : List Token} {s : Statement}
    {scope : Option Scope} (hr : r.Genuine) (hp : p.Spelled)
    (hpending : r.pending = p.tokens ++ rest)
    (hposition : p.tokens.head?.map Token.position = some s.position)
    (hresolve : p.instruction.resolve r.scope = .ok (s.command, scope)) :
    ∃ r', r.run next = (.ok (some s), r') ∧ r'.pending = rest ∧ r'.scope = scope := by
  obtain ⟨operands, htokens, hoperands⟩ := hp
  obtain ⟨t, ts, htokens', ht, rfl⟩ := List.map_eq_cons_iff.mp htokens
  obtain ⟨hkind, htext⟩ := Prod.mk.inj ht
  rw [htokens', List.cons_append] at hpending
  rw [htokens'] at hposition
  rw [run_next_cons hpending hkind]
  have hgenuine : Reader.Genuine
      { r with pending := ts ++ rest, current := some t, head := some t } :=
    fun u hu => hr u (hpending ▸ List.mem_cons_of_mem t hu)
  obtain ⟨r₁, hrun₁, hpending₁, hscope₁⟩ :=
    (recognizes_instruction t).complete hgenuine ⟨htext.symm, hoperands⟩ rfl
  rw [← hscope₁.scope] at hresolve
  refine ⟨{ r₁ with scope, declared := Reader.declaredWith r₁ p.instruction }, ?_, hpending₁, rfl⟩
  have hs : s = ⟨s.command, t.position⟩ := by
    rw [Option.some.inj hposition]
  rw [run_bind, hrun₁]
  dsimp only
  rw [run_bind, run_settle_of_resolve hresolve, hs]
  rfl

/-- Nothing is read only at the end of the text. -/
theorem pending_of_run_next_none {r r' : Reader} (hr : r.Genuine)
    (h : r.run next = (.ok none, r')) : r.pending = [] := by
  cases hpending : r.pending with
  | nil => rfl
  | cons t pending =>
    by_cases hkind : t.kind = .identifier
    · rw [run_next_cons hpending hkind, run_bind] at h
      split at h
      · rw [run_bind] at h
        split at h <;> cases h
      · cases h
    · have hend := (hr t (hpending ▸ List.mem_cons_self)).1
      obtain ⟨e, r'', herror⟩ := run_next_error hpending hkind hend
      rw [herror] at h
      cases h

end Reading

/-! ## Whole units -/

/-- A reader that comes to the end has read phrases, and has noted what they declare. The
induction is on the tokens left. -/
theorem Reader.phrases_of_readAll {r : Reader} (hr : r.Genuine)
    (h : r.readAll.failure = none) :
    ∃ phrases : List Phrase, r.pending = phrases.flatMap Phrase.tokens ∧
      (∀ p ∈ phrases, p.Spelled) ∧ Resolves r.scope phrases r.readAll.statements ∧
      (r.declared.Nodup → r.readAll.reader.declared.Nodup) ∧
      ∀ name, name ∈ r.readAll.reader.declared ↔ name ∈ r.declared ∨
        name ∈ declarationsOf (r.readAll.statements.map Statement.command) := by
  fun_induction Reader.readAll r with
  | case1 r s r' hnext others ih =>
    obtain ⟨p, hp, hpending, hposition, hresolve, hdeclared⟩ :=
      Reading.phrase_of_run_next hr hnext
    obtain ⟨ps, hps, hspelled, hresolves, hnodup, hothers⟩ := ih (hr.append hpending) h
    refine ⟨p :: ps, ?_, ?_, .cons hresolve hposition hresolves, fun hdistinct => ?_,
      fun name => ?_⟩
    · rw [hpending, hps, List.flatMap_cons]
    · intro q hq
      rcases List.mem_cons.mp hq with rfl | hq
      · exact hp
      · exact hspelled q hq
    · exact hnodup (hdeclared ▸ Reading.nodup_declaredWith hdistinct p.instruction)
    · rw [hothers, hdeclared, Reading.mem_declaredWith, Reading.declares?_of_resolve hresolve,
        List.map_cons, declarationsOf_cons, List.mem_append, Option.mem_toList, or_assoc]
  | case2 r r' hnext =>
    have hpending := Reading.pending_of_run_next_none hr hnext
    rw [Reading.run_next_nil hpending] at hnext
    cases hnext
    refine ⟨[], hpending, ?_, .nil _, fun hdistinct => ?_, fun name => ?_⟩
    · intro q hq
      cases hq
    · simpa [Reader.take, hpending] using hdistinct
    · simp [declarationsOf, Reader.take, hpending]
  | case3 r e r' hnext => cases h

theorem Reader.readAll_of_run_next {r r' : Reader} {s : Statement}
    (h : r.run Reading.next = (.ok (some s), r')) :
    r.readAll = { r'.readAll with statements := s :: r'.readAll.statements } := by
  rw [Reader.readAll]
  split
  · rename_i s' r'' hnext
    rw [h] at hnext
    cases hnext
    rfl
  · rename_i r'' hnext
    rw [h] at hnext
    cases hnext
  · rename_i e r'' hnext
    rw [h] at hnext
    cases hnext

theorem Reader.readAll_of_run_next_error {r r' : Reader} {e : ReadError}
    (h : r.run Reading.next = (.error e, r')) : r.readAll = ⟨[], some e, r'⟩ := by
  rw [Reader.readAll]
  split <;> rename_i hnext <;> rw [h] at hnext <;> cases hnext
  rfl

theorem Reader.readAll_of_run_next_none {r r' : Reader} (h : r.run Reading.next = (.ok none, r')) :
    r.readAll = ⟨[], none, r'⟩ := by
  rw [Reader.readAll]
  split <;> rename_i hnext <;> rw [h] at hnext <;> cases hnext
  rfl

theorem Reader.readAll_of_pending_nil {r : Reader} (h : r.pending = []) :
    r.readAll = ⟨[], none, r.take.2⟩ := by
  have hnil := Reading.run_next_nil h
  rw [Reader.readAll]
  split
  · rename_i s' r'' hnext
    rw [hnil] at hnext
    cases hnext
  · rename_i r'' hnext
    rw [hnil] at hnext
    cases hnext
    rfl
  · rename_i e r'' hnext
    rw [hnil] at hnext
    cases hnext

/-- Phrases are read to the end. The induction is on the phrases. -/
theorem Reader.readAll_of_phrases {r : Reader} {phrases : List Phrase}
    {statements : List Statement} (hr : r.Genuine)
    (hpending : r.pending = phrases.flatMap Phrase.tokens) (hspelled : ∀ p ∈ phrases, p.Spelled)
    (h : Resolves r.scope phrases statements) :
    r.readAll.failure = none ∧ r.readAll.statements = statements := by
  induction phrases generalizing r statements with
  | nil =>
    cases h
    rw [Reader.readAll_of_pending_nil hpending]
    exact ⟨rfl, rfl⟩
  | cons p ps ih =>
    obtain _ | ⟨resolved, position, others⟩ := h
    rw [List.flatMap_cons] at hpending
    obtain ⟨r', hnext, hpending', hscope⟩ := Reading.run_next_of_phrase hr
      (hspelled p List.mem_cons_self) hpending position resolved
    have hgenuine : r'.Genuine := hr.append (hpending' ▸ hpending)
    obtain ⟨hfailure, hstatements⟩ := ih hgenuine hpending'
      (fun q hq => hspelled q (List.mem_cons_of_mem _ hq)) (hscope ▸ others)
    rw [Reader.readAll_of_run_next hnext]
    exact ⟨hfailure, congrArg _ hstatements⟩

theorem readUnit_eq_ok_iff {source unit : String} {statements : List Statement} :
    readUnit source unit = .ok statements ↔
      (Reader.ofString source unit).readAll.failure = none ∧
        (Reader.ofString source unit).readAll.statements = statements := by
  unfold readUnit
  dsimp only
  split
  · rename_i e he
    simp [he]
  · rename_i hnone
    simp [hnone]

theorem genuine_ofString (source unit : String) : (Reader.ofString source unit).Genuine :=
  fun _ ht => @wellFormed_of_mem_dropLast source _ ht

/-- Phrases that make up a text are read as what they elaborate to. -/
theorem IsProgram.readUnit {source : String} {phrases : List Phrase}
    (h : IsProgram source phrases) (unit : String) {statements : List Statement}
    (hresolves : Resolves none phrases statements) :
    HackVm.readUnit source unit = .ok statements := by
  refine readUnit_eq_ok_iff.mpr (Reader.readAll_of_phrases (genuine_ofString source unit) ?_
    h.spelled hresolves)
  rw [← h.tokens, filter_tokenize]
  rfl

theorem IsProgram.exists_resolves {source : String} {phrases : List Phrase}
    (h : IsProgram source phrases) : ∃ statements, Resolves none phrases statements := by
  refine HackVm.exists_resolves [] (fun p hp htokens => ?_) ?_
  · obtain ⟨operands, hlist, -⟩ := h.spelled p hp
    rw [htokens] at hlist
    cases hlist
  · intro pre p post hsplit hneeds
    obtain ⟨q, hq, name, n, hfunction⟩ := h.declared pre p post hsplit hneeds
    exact (Instruction.enclosing?_ne_none_iff _).mpr
      ⟨_, List.mem_map_of_mem hq, name, n, hfunction⟩

/-- A text is read without an error if and only if it is a program of the grammar, and then each
phrase of it becomes one statement. -/
theorem readUnit_grammar (source unit : String) :
    ((∃ statements, readUnit source unit = .ok statements) ↔ ∃ phrases, IsProgram source phrases) ∧
      ∀ phrases, IsProgram source phrases →
        ∃ statements, readUnit source unit = .ok statements ∧ Elaborates phrases statements := by
  have helaborate : ∀ phrases, IsProgram source phrases →
      ∃ statements, readUnit source unit = .ok statements ∧ Elaborates phrases statements := by
    intro phrases h
    obtain ⟨statements, hresolves⟩ := h.exists_resolves
    exact ⟨statements, h.readUnit unit hresolves, Resolves.complete [] hresolves⟩
  refine ⟨⟨?_, ?_⟩, helaborate⟩
  · rintro ⟨statements, hread⟩
    obtain ⟨hfailure, -⟩ := readUnit_eq_ok_iff.mp hread
    obtain ⟨phrases, hpending, hspelled, hresolves, -⟩ :=
      Reader.phrases_of_readAll (genuine_ofString source unit) hfailure
    refine ⟨phrases, ?_, hspelled, ?_⟩
    · rw [filter_tokenize, ← hpending]
      rfl
    · -- what was resolved had its function in scope
      intro before p after hsplit hneeds
      obtain ⟨s, -, hcomplete, -⟩ :=
        (Resolves.complete [] hresolves).2 before p after hsplit
      have henclosing := (Instruction.exists_complete_iff _ _).mp ⟨_, hcomplete⟩ hneeds
      obtain ⟨i, hi, name, n, hfunction⟩ := (Instruction.enclosing?_ne_none_iff _).mp henclosing
      obtain ⟨q, hq, rfl⟩ := List.mem_map.mp hi
      exact ⟨q, hq, name, n, hfunction⟩
  · rintro ⟨phrases, h⟩
    obtain ⟨statements, hread, -⟩ := helaborate phrases h
    exact ⟨statements, hread⟩

/-! ## Commands in their scope -/

/-- Commands that instructions were resolved to, from a scope on. -/
inductive Scoped : Option Scope → List Command → Prop
  | nil (scope : Option Scope) : Scoped scope []
  | cons {scope scope' : Option Scope} {i : Instruction} {c : Command} {cs : List Command}
      (named : i.Named) (resolved : i.resolve scope = .ok (c, scope'))
      (others : Scoped scope' cs) : Scoped scope (c :: cs)

theorem Resolves.scoped {scope : Option Scope} {phrases : List Phrase}
    {statements : List Statement} (h : Resolves scope phrases statements)
    (hnamed : ∀ p ∈ phrases, p.instruction.Named) :
    Scoped scope (statements.map Statement.command) := by
  induction h with
  | nil scope => exact .nil scope
  | @cons scope scope' p ps s ss resolved position others ih =>
    refine .cons (hnamed p List.mem_cons_self) resolved (ih fun q hq => ?_)
    exact hnamed q (List.mem_cons_of_mem p hq)

/-- The commands of a unit are scoped from the outside of any function on. -/
theorem scoped_of_readUnit {source unit : String} {statements : List Statement}
    (h : readUnit source unit = .ok statements) :
    Scoped none (statements.map Statement.command) := by
  obtain ⟨hfailure, rfl⟩ := readUnit_eq_ok_iff.mp h
  have hgenuine := genuine_ofString source unit
  obtain ⟨phrases, hpending, hspelled, hresolves, -⟩ :=
    Reader.phrases_of_readAll hgenuine hfailure
  refine Resolves.scoped hresolves fun p hp => (hspelled p hp).named fun t ht => ?_
  exact (hgenuine t (hpending ▸ List.mem_flatMap.mpr ⟨p, hp, ht⟩)).2

/-- What a reader lists at the end of a unit are the functions that its commands declare. -/
theorem mem_declaredByName_of_readUnit {source unit : String} {statements : List Statement}
    (h : readUnit source unit = .ok statements) (name : String) :
    name ∈ (Reader.ofString source unit).readAll.reader.declaredByName ↔
      name ∈ declarationsOf (statements.map Statement.command) := by
  obtain ⟨hfailure, rfl⟩ := readUnit_eq_ok_iff.mp h
  obtain ⟨-, -, -, -, -, hdeclared⟩ :=
    Reader.phrases_of_readAll (genuine_ofString source unit) hfailure
  have hstart : name ∉ (Reader.ofString source unit).declared := List.not_mem_nil
  rw [Reader.declaredByName, List.mem_mergeSort, hdeclared]
  simp only [hstart, false_or]

/-- It lists each of them once. -/
theorem nodup_declaredByName_of_readUnit {source unit : String} {statements : List Statement}
    (h : readUnit source unit = .ok statements) :
    (Reader.ofString source unit).readAll.reader.declaredByName.Nodup := by
  obtain ⟨-, -, -, -, hnodup, -⟩ :=
    Reader.phrases_of_readAll (genuine_ofString source unit) (readUnit_eq_ok_iff.mp h).1
  exact (List.mergeSort_perm _ _).nodup_iff.mpr (hnodup List.nodup_nil)

end HackVm
