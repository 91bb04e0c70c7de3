import HackVm.Proofs.Files.Inspection

set_option autoImplicit false

/-! # Agreement of two states

Work that inspects is taken apart again: where the whole has succeeded, so have its parts, and each
of them has left the state as it is (`ReportT.Inspects.exists_of_bind`).

Two states agree on some work if it leaves both as they are and has the same result from both on
(`ReportT.Agrees`). On work that is put together from parts, states agree if they agree on the
parts, and behind a part only for the value that it gives. -/

namespace HackVm

namespace ReportT

variable {S ε α β γ δ : Type} {s s' : S}

/-! ## Work on each element of a list -/

namespace Yields

variable {x : ReportT ε (StateM S) α} {f : γ → ReportT ε (StateM S) α}

theorem pure (a : α) (s : S) : (pure a : ReportT ε (StateM S) α).Yields s (.ok a) s := ⟨rfl, rfl⟩

theorem throw (e : ε) (s : S) : (throw e : ReportT ε (StateM S) α).Yields s (.error e) s :=
  ⟨rfl, rfl⟩

theorem mapM {cs : List γ} {as : List α}
    (h : List.Forall₂ (fun c a => (f c).Yields s (.ok a) s) cs as) :
    (cs.mapM f).Yields s (.ok as) s := by
  -- the values are gathered in a second list, in reverse order
  have hloop : ∀ found : List α,
      (List.mapM.loop f cs found).Yields s (.ok (found.reverse ++ as)) s := by
    induction h with
    | nil =>
      intro found
      rw [List.append_nil]
      exact .pure found.reverse s
    | cons hc _ ih => exact fun found => hc.bind (by simpa using ih (_ :: found))
  exact hloop []

/-- The elements may be made from others that tell which are kept. -/
theorem filterM {p : γ → ReportT ε (StateM S) Bool} {es : List δ} {g : δ → γ} {q : δ → Bool}
    (h : ∀ e ∈ es, (p (g e)).Yields s (.ok (q e)) s) :
    ((es.map g).filterM p).Yields s (.ok ((es.filter q).map g)) s := by
  have hloop : ∀ found : List γ, (List.filterAuxM p (es.map g) found).Yields s
      (.ok (((es.filter q).map g).reverse ++ found)) s := by
    induction es with
    | nil => exact fun found => .pure found s
    | cons e es ih =>
      intro found
      have hrest := ih (fun e' he' => h e' (List.mem_cons_of_mem e he'))
      refine (h e List.mem_cons_self).bind ?_
      cases hq : q e with
      | true => simpa [hq] using hrest (g e :: found)
      | false => simpa [hq] using hrest found
  exact (hloop []).bind (by simpa using Yields.pure _ s)

end Yields

/-! ## Work that has succeeded -/

/-- Work that succeeds has succeeded in its first part. -/
theorem Yields.exists_of_bind {x : ReportT ε (StateM S) α} {f : α → ReportT ε (StateM S) β} {b : β}
    (h : (x >>= f).Yields s (.ok b) s') :
    ∃ a s₁, x.Yields s (.ok a) s₁ ∧ (f a).Yields s₁ (.ok b) s' := by
  cases hx : x.resultAt s with
  | error e =>
    have herror : x.Yields s (.error e) (x.stateAt s) := ⟨hx, rfl⟩
    cases h.1.symm.trans herror.bind_error.1
  | ok a =>
    have hfirst : x.Yields s (.ok a) (x.stateAt s) := ⟨hx, rfl⟩
    have hrest := hfirst.bind (f := f) ⟨rfl, rfl⟩
    exact ⟨a, _, hfirst, hrest.1.symm.trans h.1, hrest.2.symm.trans h.2⟩

theorem Inspects.yields {E : ε → Prop} {x : ReportT ε (StateM S) α} (hx : x.Inspects E) (s : S) :
    x.Yields s (x.resultAt s) s := by
  rcases hx s with ⟨_, hsame⟩ | ⟨_, _, hsame⟩ <;> exact ⟨rfl, hsame.2⟩

theorem Inspects.exists_of_bind {E : ε → Prop} {x : ReportT ε (StateM S) α}
    {f : α → ReportT ε (StateM S) β} {b : β} (hx : x.Inspects E)
    (h : (x >>= f).Yields s (.ok b) s') :
    ∃ a, x.Yields s (.ok a) s ∧ (f a).Yields s (.ok b) s' := by
  obtain ⟨a, s₁, hfirst, hrest⟩ := h.exists_of_bind
  obtain rfl : s = s₁ := (hx.yields s).2.symm.trans hfirst.2
  exact ⟨a, hfirst, hrest⟩

/-- Where elements were looked at and kept or not, the look at each has succeeded. -/
theorem Inspects.exists_of_filterM {E : ε → Prop} {p : γ → ReportT ε (StateM S) Bool}
    (hp : ∀ c, (p c).Inspects E) {cs kept : List γ} (h : (cs.filterM p).Yields s (.ok kept) s') :
    ∀ c ∈ cs, ∃ b, (p c).Yields s (.ok b) s := by
  obtain ⟨found', s₁, hloop, -⟩ := h.exists_of_bind
  clear h
  generalize ([] : List γ) = found at hloop
  induction cs generalizing found with
  | nil => exact fun c hc => absurd hc List.not_mem_nil
  | cons c cs ih =>
    obtain ⟨b, hb, hrest⟩ := (hp c).exists_of_bind hloop
    rintro c' (_ | ⟨_, hc'⟩)
    · exact ⟨b, hb⟩
    · exact ih _ hrest c' hc'

theorem Inspects.forall₂_of_mapM {E : ε → Prop} {f : γ → ReportT ε (StateM S) α}
    (hf : ∀ c, (f c).Inspects E) {cs : List γ} {as : List α}
    (h : (cs.mapM f).Yields s (.ok as) s') :
    List.Forall₂ (fun c a => (f c).Yields s (.ok a) s) cs as := by
  have hloop : ∀ found : List α, (List.mapM.loop f cs found).Yields s (.ok as) s' →
      ∃ rest, as = found.reverse ++ rest ∧
        List.Forall₂ (fun c a => (f c).Yields s (.ok a) s) cs rest := by
    clear h
    induction cs with
    | nil =>
      intro found h
      cases h.1
      exact ⟨[], by simp, .nil⟩
    | cons c cs ih =>
      intro found h
      obtain ⟨a, ha, hrest⟩ := (hf c).exists_of_bind h
      obtain ⟨rest, has, hall⟩ := ih _ hrest
      exact ⟨a :: rest, by simpa using has, .cons ha hall⟩
  obtain ⟨rest, rfl, hall⟩ := hloop [] h
  exact hall

/-! ## Agreement of two states -/

/-- The work leaves both states as they are, and has the same result from both on. -/
def Agrees (x : ReportT ε (StateM S) α) (s s' : S) : Prop :=
  ∃ r, x.Yields s r s ∧ x.Yields s' r s'

namespace Agrees

variable {x : ReportT ε (StateM S) α} {f : α → ReportT ε (StateM S) β}

/-- What comes behind is asked for the value of the first part only. -/
theorem bind (hx : x.Agrees s s') (hf : ∀ a, x.Yields s (.ok a) s → (f a).Agrees s s') :
    (x >>= f).Agrees s s' := by
  obtain ⟨r, hs, hs'⟩ := hx
  cases r with
  | error e => exact ⟨.error e, hs.bind_error, hs'.bind_error⟩
  | ok a =>
    obtain ⟨r, hr, hr'⟩ := hf a hs
    exact ⟨r, hs.bind hr, hs'.bind hr'⟩

theorem pure (a : α) (s s' : S) : (pure a : ReportT ε (StateM S) α).Agrees s s' :=
  ⟨.ok a, .pure a s, .pure a s'⟩

theorem throw (e : ε) (s s' : S) : (throw e : ReportT ε (StateM S) α).Agrees s s' :=
  ⟨.error e, .throw e s, .throw e s'⟩

theorem note (n : Notice) (s s' : S) :
    (ReportT.note n : ReportT ε (StateM S) Unit).Agrees s s' :=
  ⟨.ok (), .note n s, .note n s'⟩

theorem ofReport (r : Report ε α) (s s' : S) : (r : ReportT ε (StateM S) α).Agrees s s' :=
  ⟨r.result, ⟨rfl, rfl⟩, ⟨rfl, rfl⟩⟩

theorem ofState {y : StateM S α} {a : α} (h : y.run s = (a, s)) (h' : y.run s' = (a, s')) :
    (y : ReportT ε (StateM S) α).Agrees s s' :=
  ⟨.ok a, .ofState h, .ofState h'⟩

theorem mapM {f : γ → ReportT ε (StateM S) α} {cs : List γ} (h : ∀ c ∈ cs, (f c).Agrees s s') :
    (cs.mapM f).Agrees s s' := by
  have hloop : ∀ found : List α, (List.mapM.loop f cs found).Agrees s s' := by
    induction cs with
    | nil => exact fun found => .pure found.reverse s s'
    | cons c cs ih =>
      intro found
      refine (h c List.mem_cons_self).bind fun a _ => ?_
      exact ih (fun c' hc' => h c' (List.mem_cons_of_mem c hc')) (a :: found)
  exact hloop []

/-- What has a value in one state has it in the other, where they agree. -/
theorem yields {r : Except ε α} (h : x.Agrees s s') (hx : x.Yields s r s) : x.Yields s' r s' := by
  obtain ⟨r', hs, hs'⟩ := h
  exact (hs.1.symm.trans hx.1) ▸ hs'

end Agrees

end ReportT

section

variable {S α : Type} {s s' : S} {path : String} {answer : StateM S (Except AccessError α)}

theorem run_of_granted {a : α}
    (h : (granted path answer : ReportT BuildError (StateM S) α).Yields s (.ok a) s') :
    answer.run s = (.ok a, s') := by
  obtain ⟨r, s₁, hanswer, hrest⟩ := h.exists_of_bind
  cases r with
  | error cause => cases hrest.1
  | ok a' =>
    cases hrest.1
    cases hrest.2
    exact Prod.ext (Except.ok.inj hanswer.1) hanswer.2

theorem agrees_granted {r : Except AccessError α} (h : answer.run s = (r, s))
    (h' : answer.run s' = (r, s')) :
    (granted path answer : ReportT BuildError (StateM S) α).Agrees s s' := by
  refine (ReportT.Agrees.ofState h h').bind fun r _ => ?_
  cases r with
  | ok a => exact .pure a s s'
  | error cause => exact .throw _ s s'

end

end HackVm
