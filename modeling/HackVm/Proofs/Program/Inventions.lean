import HackVm.Proofs.Machine.Assembler
import HackVm.Proofs.Program.Code
import Mathlib.Data.List.Nodup

set_option autoImplicit false

/-! # Invented labels

Some commands get labels that nobody wrote: the loop that clears the locals of a function, the
place behind a call, the end of a comparison. Such a label is an owner and a kind with a `$`
between them. Owners are arbitrary names, but no kind has a `$` in it, so the last `$` tells where
the owner ends (`InventedLabel.text_injective`).

Two counters keep labels of one owner apart: a function numbers its calls and a unit its
comparisons. `Belongs` is what the labels still to come have to do with these counters; from it
follows that no label is invented twice (`nodup_inventions`). -/

namespace HackVm

/-! ## Owners and kinds -/

inductive LabelKind
  | localsLoop
  | localsEnd
  | returnAddress (n : Nat)
  | comparison (n : Nat)
  deriving DecidableEq, Repr

def LabelKind.text : LabelKind → String
  | .localsLoop => "locals.loop"
  | .localsEnd => "locals.end"
  | .returnAddress n => "ret." ++ toString n
  | .comparison n => "cmp." ++ toString n

/-- A label made up for a function or a unit. -/
structure InventedLabel where
  owner : String
  kind : LabelKind
  deriving DecidableEq, Repr

def InventedLabel.text (l : InventedLabel) : String := l.owner ++ "$" ++ l.kind.text

theorem toString_injective {m n : Nat} (h : (toString m).toList = (toString n).toList) :
    m = n := by
  have hvalue := congrArg (fun ds => Nat.ofDigitChars 10 ds 0) h
  simpa [Nat.toString_eq_ofList_toDigits] using hvalue

theorem LabelKind.text_injective {j k : LabelKind} (h : j.text = k.text) : j = k := by
  have hlist := congrArg String.toList h
  have hhead := congrArg List.head? hlist
  cases j <;> cases k
  case localsLoop.localsLoop | localsEnd.localsEnd => rfl
  case localsLoop.localsEnd | localsEnd.localsLoop => exact absurd hlist (by decide)
  case returnAddress.returnAddress m n | comparison.comparison m n =>
    simp only [LabelKind.text, String.toList_append] at hlist
    rw [toString_injective (List.append_cancel_left hlist)]
  -- the other texts begin differently
  all_goals simp [LabelKind.text] at hhead

theorem LabelKind.not_mem_text (k : LabelKind) : '$' ∉ k.text.toList := by
  have hdigits : ∀ n : Nat, '$' ∉ (toString n).toList :=
    fun n hmem => absurd (Text.isDigit_of_mem_toString hmem) (by decide)
  cases k with
  | localsLoop | localsEnd => decide
  | returnAddress n | comparison n =>
    rw [LabelKind.text, String.toList_append, List.mem_append, not_or]
    exact ⟨by decide, hdigits n⟩

/-- A text that is cut at a mark in two ways: the cuts are the same, or one part has the mark in it
once more. -/
theorem append_cons_eq_append_cons {c : Char} {xs xs' ys ys' : List Char}
    (h : xs ++ c :: ys = xs' ++ c :: ys') :
    (xs = xs' ∧ ys = ys') ∨ (∃ zs, xs' = xs ++ c :: zs ∧ ys = zs ++ c :: ys') ∨
      ∃ zs, xs = xs' ++ c :: zs ∧ ys' = zs ++ c :: ys := by
  rcases List.append_eq_append_iff.mp h with ⟨zs, hxs, hys⟩ | ⟨zs, hxs, hys⟩
  · cases zs with
    | nil => exact .inl ⟨by rw [hxs, List.append_nil], (List.cons.inj hys).2⟩
    | cons z zs =>
      obtain ⟨rfl, hrest⟩ := List.cons.inj hys
      exact .inr (.inl ⟨zs, hxs, hrest⟩)
  · cases zs with
    | nil => exact .inl ⟨by rw [hxs, List.append_nil], (List.cons.inj hys).2.symm⟩
    | cons z zs =>
      obtain ⟨rfl, hrest⟩ := List.cons.inj hys
      exact .inr (.inr ⟨zs, hxs, hrest⟩)

/-- What stands in front of the last of some mark is unique. -/
theorem append_cons_inj_of_not_mem {c : Char} {xs xs' ys ys' : List Char}
    (h : xs ++ c :: ys = xs' ++ c :: ys') (hy : c ∉ ys) (hy' : c ∉ ys') :
    xs = xs' ∧ ys = ys' := by
  rcases append_cons_eq_append_cons h with heq | ⟨zs, -, rfl⟩ | ⟨zs, -, rfl⟩
  · exact heq
  · exact absurd (List.mem_append_right zs List.mem_cons_self) hy
  · exact absurd (List.mem_append_right zs List.mem_cons_self) hy'

theorem InventedLabel.text_injective : Function.Injective InventedLabel.text := by
  rintro ⟨owner, kind⟩ ⟨owner', kind'⟩ h
  have hlist := congrArg String.toList h
  simp only [InventedLabel.text, String.toList_append, List.append_assoc] at hlist
  obtain ⟨howner, hkind⟩ :=
    append_cons_inj_of_not_mem hlist kind.not_mem_text kind'.not_mem_text
  rw [String.toList_inj.mp howner, LabelKind.text_injective (String.toList_inj.mp hkind)]

/-! ## Labels as the code has them -/

theorem text_localsLoop (function : String) :
    InventedLabel.text ⟨function, .localsLoop⟩ = Sequence.localsLoop function := by
  refine String.toList_inj.mp ?_
  simp [InventedLabel.text, LabelKind.text, Sequence.localsLoop]

theorem text_localsEnd (function : String) :
    InventedLabel.text ⟨function, .localsEnd⟩ = Sequence.localsEnd function := by
  refine String.toList_inj.mp ?_
  simp [InventedLabel.text, LabelKind.text, Sequence.localsEnd]

theorem text_returnAddress (s : Scope) :
    InventedLabel.text ⟨s.function, .returnAddress s.calls⟩ = s.returnAddress := by
  refine String.toList_inj.mp ?_
  simp [InventedLabel.text, LabelKind.text, Scope.returnAddress]

theorem text_comparison (unit : String) (n : Nat) :
    InventedLabel.text ⟨unit, .comparison n⟩ = Generator.comparisonLabel unit n := by
  refine String.toList_inj.mp ?_
  simp [InventedLabel.text, LabelKind.text, Generator.comparisonLabel]

theorem localsLoop_ne (function : String) : Sequence.localsLoop function ≠ function := by
  intro h
  have hlength := congrArg String.length h
  simp [Sequence.localsLoop, String.length_append] at hlength

theorem localsEnd_ne (function : String) : Sequence.localsEnd function ≠ function := by
  intro h
  have hlength := congrArg String.length h
  simp [Sequence.localsEnd, String.length_append] at hlength

/-! ## Commands that get labels -/

/-- The label that a command is written for. -/
def Command.writtenLabel? : Command → Option String
  | .label name => some name
  | .function name _ => some name
  | _ => none

/-- The labels that the code of a command defines beside the one it is written for. -/
def Coded.invented (c : Coded) : List String :=
  (labelsOf c.body).filter fun l => decide (c.command.writtenLabel? ≠ some l)

namespace Command

/-- What is invented for a command in a scope of a unit with some comparisons before. -/
def inventions (unit : String) (scope : Option Scope) (comparisons : Nat) :
    Command → List InventedLabel
  | .arithmetic op => if op.isComparison then [⟨unit, .comparison (comparisons + 1)⟩] else []
  | .function name _ => [⟨name, .localsLoop⟩, ⟨name, .localsEnd⟩]
  | .call _ _ _ => (scope.map fun s => ⟨s.function, .returnAddress s.calls⟩).toList
  | _ => []

def scopeAfter (scope : Option Scope) : Command → Option Scope
  | .function name _ => some (.enter name)
  | .call _ _ _ => scope.map Scope.called
  | _ => scope

def comparisonsAfter (comparisons : Nat) : Command → Nat
  | .arithmetic op => if op.isComparison then comparisons + 1 else comparisons
  | _ => comparisons

end Command

/-- What is invented for a row of commands. -/
def inventions (unit : String) : Option Scope → Nat → List Command → List InventedLabel
  | _, _, [] => []
  | scope, n, c :: cs =>
    c.inventions unit scope n ++ inventions unit (c.scopeAfter scope) (c.comparisonsAfter n) cs

theorem Instruction.scopeAfter_of_resolve {i : Instruction} {scope scope' : Option Scope}
    {c : Command} (h : i.resolve scope = .ok (c, scope')) : c.scopeAfter scope = scope' := by
  cases scope with
  | none => cases i <;> cases h <;> rfl
  | some s => cases i <;> cases h <;> rfl

theorem Generator.comparisons_of_lower {g g' : Generator} {c : Command} {body : List Line}
    (h : g.lower c = .ok (body, g')) : g'.comparisons = c.comparisonsAfter g.comparisons := by
  cases c with
  | arithmetic op => cases op <;> cases h <;> rfl
  | push segment index | pop segment index =>
    obtain ⟨-, rfl⟩ := Generator.eq_of_map_eq_ok h
    rfl
  | _ => cases h; rfl

theorem labelsOf_push {g : Generator} {segment : Segment} {index : Int} {body : List Line}
    (h : g.push segment index = .ok body) : labelsOf body = [] := by
  cases segment with
  | based base | constant | static =>
    cases h
    rfl
  | pointer | temp =>
    obtain ⟨symbol, -, rfl⟩ := exists_of_map_mapError h
    rfl

theorem labelsOf_pop {g : Generator} {segment : Segment} {index : Int} {body : List Line}
    (h : g.pop segment index = .ok body) : labelsOf body = [] := by
  cases segment with
  | constant => cases h
  | based base | static =>
    cases h
    rfl
  | pointer | temp =>
    obtain ⟨symbol, -, rfl⟩ := exists_of_map_mapError h
    rfl

/-- The labels in the code of one command. -/
theorem invented_eq {g g' : Generator} {scope scope' : Option Scope} {i : Instruction}
    {c : Coded} (hlower : g.lower c.command = .ok (c.body, g'))
    (hresolve : i.resolve scope = .ok (c.command, scope')) :
    c.invented = (c.command.inventions g.unit scope g.comparisons).map InventedLabel.text := by
  obtain ⟨unit, command, body⟩ := c
  cases command with
  | arithmetic op =>
    have hcomparison : ∀ condition label, Sequence.comparison condition label = body →
        (Coded.mk unit (.arithmetic op) body).invented = [label] := by
      rintro condition label rfl
      rfl
    cases op with
    | eq | gt | lt =>
      obtain ⟨hbody, -⟩ := Prod.mk.inj (Except.ok.inj hlower)
      rw [hcomparison _ _ hbody, ← text_comparison]
      rfl
    | _ =>
      cases hlower
      rfl
  | push segment index =>
    obtain ⟨hpush, rfl⟩ := Generator.eq_of_map_eq_ok hlower
    rw [Coded.invented, labelsOf_push hpush]
    rfl
  | pop segment index =>
    obtain ⟨hpop, rfl⟩ := Generator.eq_of_map_eq_ok hlower
    rw [Coded.invented, labelsOf_pop hpop]
    rfl
  | label name =>
    cases hlower
    simp [Coded.invented, labelsOf, Line.defines?, Command.writtenLabel?, Command.inventions]
  | function name locals =>
    obtain ⟨hbody, -⟩ := Prod.mk.inj (Except.ok.inj hlower)
    have hlabels : labelsOf (Sequence.function name locals) =
        [name, Sequence.localsLoop name, Sequence.localsEnd name] := rfl
    rw [Coded.invented, ← hbody, hlabels]
    simp [Command.writtenLabel?, Command.inventions, text_localsLoop, text_localsEnd,
      (localsLoop_ne name).symm, (localsEnd_ne name).symm]
  | call callee arguments back =>
    obtain ⟨hbody, -⟩ := Prod.mk.inj (Except.ok.inj hlower)
    have hlabels : labelsOf (Sequence.call callee arguments back) = [back] := rfl
    cases scope with
    | none => cases i <;> cases hresolve
    | some s =>
      have hback : back = s.returnAddress := by
        cases i <;> cases hresolve
        rfl
      rw [Coded.invented, ← hbody, hlabels, hback, ← text_returnAddress]
      rfl
  | goto name | ifGoto name | ret =>
    cases hlower
    rfl

/-- The labels in the code of a row of commands. -/
theorem flatMap_invented {g : Generator} {scope : Option Scope} {codes : List Coded}
    (hlowered : Lowered g codes) (hscoped : Scoped scope (codes.map Coded.command)) :
    codes.flatMap Coded.invented =
      (inventions g.unit scope g.comparisons (codes.map Coded.command)).map
        InventedLabel.text := by
  induction hlowered generalizing scope with
  | nil g => rfl
  | @cons g g' c cs lowered unit others ih =>
    obtain _ | ⟨named, resolved, later⟩ := hscoped
    have hunit := (Generator.of_lower lowered).1
    have hrest := ih later
    rw [hunit, Generator.comparisons_of_lower lowered,
      ← Instruction.scopeAfter_of_resolve resolved] at hrest
    rw [List.flatMap_cons, List.map_cons, inventions, List.map_append, ← hrest,
      invented_eq lowered resolved]

/-! ## Labels are not invented twice -/

/-- What an invented label has to do with the commands it comes from: its function is declared
among them, or it is the current one and the call is still to come; or its unit is the current
one and the comparison is still to come. -/
def InventedLabel.Belongs (unit : String) (scope : Option Scope) (comparisons : Nat)
    (cs : List Command) (l : InventedLabel) : Prop :=
  match l.kind with
  | .localsLoop | .localsEnd => l.owner ∈ declarationsOf cs
  | .returnAddress n =>
    l.owner ∈ declarationsOf cs ∨ ∃ s, scope = some s ∧ l.owner = s.function ∧ s.calls ≤ n
  | .comparison n => l.owner = unit ∧ comparisons < n

theorem mem_declarationsOf_cons {c : Command} {cs : List Command} {name : String}
    (h : name ∈ declarationsOf cs) : name ∈ declarationsOf (c :: cs) := by
  rw [declarationsOf_cons]
  exact List.mem_append_right _ h

/-- What belongs to the commands behind one belongs to them together with it. -/
theorem InventedLabel.Belongs.cons {unit : String} {scope : Option Scope} {n : Nat} {c : Command}
    {cs : List Command} {l : InventedLabel}
    (h : l.Belongs unit (c.scopeAfter scope) (c.comparisonsAfter n) cs) :
    l.Belongs unit scope n (c :: cs) := by
  obtain ⟨owner, kind⟩ := l
  cases kind with
  | localsLoop | localsEnd => exact mem_declarationsOf_cons h
  | comparison k =>
    obtain ⟨howner, hk⟩ := h
    refine ⟨howner, Nat.lt_of_le_of_lt ?_ hk⟩
    unfold Command.comparisonsAfter
    split
    · split <;> omega
    · exact Nat.le_refl n
  | returnAddress k =>
    rcases h with hdeclared | ⟨s, hs, rfl, hk⟩
    · exact .inl (mem_declarationsOf_cons hdeclared)
    cases c with
    | function name locals =>
      obtain rfl := Option.some.inj hs
      exact .inl List.mem_cons_self
    | call callee arguments back =>
      obtain ⟨s', hs', rfl⟩ := Option.map_eq_some_iff.mp hs
      exact .inr ⟨s', hs', rfl, Nat.le_of_succ_le hk⟩
    | _ => exact .inr ⟨s, hs, rfl, hk⟩

theorem belongs_of_mem_inventions_command {unit : String} {scope : Option Scope} {n : Nat}
    {c : Command} {l : InventedLabel} (h : l ∈ c.inventions unit scope n) (cs : List Command) :
    l.Belongs unit scope n (c :: cs) := by
  cases c with
  | arithmetic op =>
    rw [Command.inventions] at h
    split at h
    · obtain rfl := List.mem_singleton.mp h
      exact ⟨rfl, Nat.lt_succ_self n⟩
    · cases h
  | function name locals =>
    simp only [Command.inventions, List.mem_cons, List.not_mem_nil, or_false] at h
    rcases h with rfl | rfl <;> exact List.mem_cons_self
  | call callee arguments back =>
    obtain ⟨s, hs, rfl⟩ := Option.map_eq_some_iff.mp (Option.mem_toList.mp h)
    exact .inr ⟨s, hs, rfl, Nat.le_refl _⟩
  | _ => cases h

theorem belongs_of_mem_inventions {unit : String} {scope : Option Scope} {n : Nat}
    {cs : List Command} {l : InventedLabel} (h : l ∈ inventions unit scope n cs) :
    l.Belongs unit scope n cs := by
  induction cs generalizing scope n with
  | nil => cases h
  | cons c cs ih =>
    rcases List.mem_append.mp h with hfirst | hrest
    · exact belongs_of_mem_inventions_command hfirst cs
    · exact (ih hrest).cons

/-- Nothing that is invented for a command belongs to the commands behind it. -/
theorem not_belongs_of_mem_inventions {unit : String} {scope : Option Scope} {n : Nat}
    {c : Command} {cs : List Command} {l : InventedLabel}
    (hfunctions : (declarationsOf (c :: cs)).Nodup)
    (hscope : ∀ s, scope = some s → s.function ∉ declarationsOf (c :: cs))
    (h : l ∈ c.inventions unit scope n) :
    ¬ l.Belongs unit (c.scopeAfter scope) (c.comparisonsAfter n) cs := by
  cases c with
  | arithmetic op =>
    rw [Command.inventions] at h
    split at h
    · rename_i hop
      obtain rfl := List.mem_singleton.mp h
      rintro ⟨-, hlt⟩
      rw [Command.comparisonsAfter, if_pos hop] at hlt
      exact Nat.lt_irrefl _ hlt
    · cases h
  | function name locals =>
    have hname : name ∉ declarationsOf cs := (List.nodup_cons.mp hfunctions).1
    simp only [Command.inventions, List.mem_cons, List.not_mem_nil, or_false] at h
    rcases h with rfl | rfl <;> exact hname
  | call callee arguments back =>
    obtain ⟨s, rfl, rfl⟩ := Option.map_eq_some_iff.mp (Option.mem_toList.mp h)
    rintro (hdeclared | ⟨s', hs', -, hk⟩)
    · exact hscope s rfl hdeclared
    · obtain rfl := Option.some.inj hs'
      exact Nat.lt_irrefl _ hk
  | _ => cases h

theorem Command.nodup_inventions (unit : String) (scope : Option Scope) (n : Nat) (c : Command) :
    (c.inventions unit scope n).Nodup := by
  cases c with
  | arithmetic op =>
    rw [Command.inventions]
    split
    · exact List.nodup_singleton _
    · exact List.nodup_nil
  | function name locals => simp [Command.inventions]
  | call callee arguments back => cases scope <;> simp [Command.inventions]
  | _ => exact List.nodup_nil

/-- The current function stays undeclared in what follows. -/
theorem not_mem_declarationsOf_scopeAfter {scope : Option Scope} {c : Command} {cs : List Command}
    (hfunctions : (declarationsOf (c :: cs)).Nodup)
    (hscope : ∀ s, scope = some s → s.function ∉ declarationsOf (c :: cs)) :
    ∀ s, c.scopeAfter scope = some s → s.function ∉ declarationsOf cs := by
  intro s hs
  cases c with
  | function name locals =>
    obtain rfl := Option.some.inj hs
    exact (List.nodup_cons.mp hfunctions).1
  | call callee arguments back =>
    obtain ⟨s', hs', rfl⟩ := Option.map_eq_some_iff.mp hs
    exact hscope s' hs'
  | _ => exact fun hmem => hscope s hs (mem_declarationsOf_cons hmem)

/-- Labels invented for a row of commands are distinct, if functions are declared once. -/
theorem nodup_inventions {unit : String} {scope : Option Scope} {n : Nat} {cs : List Command}
    (hfunctions : (declarationsOf cs).Nodup)
    (hscope : ∀ s, scope = some s → s.function ∉ declarationsOf cs) :
    (inventions unit scope n cs).Nodup := by
  induction cs generalizing scope n with
  | nil => exact List.nodup_nil
  | cons c cs ih =>
    have hrest : (declarationsOf cs).Nodup := by
      rw [declarationsOf_cons] at hfunctions
      exact (List.nodup_append.mp hfunctions).2.1
    refine List.nodup_append.mpr ⟨c.nodup_inventions unit scope n,
      ih hrest (not_mem_declarationsOf_scopeAfter hfunctions hscope), ?_⟩
    intro l hl l' hl' heq
    subst heq
    exact not_belongs_of_mem_inventions hfunctions hscope hl (belongs_of_mem_inventions hl')

/-! ## Whole programs -/

/-- The labels invented for a unit come from its functions and the unit itself. -/
theorem IsUnitCode.exists_inventions {scope : StaticScope} {unit source : String}
    {codes : List Coded} (h : IsUnitCode scope unit source codes)
    (hfunctions : (declaredIn unit source).Nodup) :
    ∃ ls : List InventedLabel, codes.flatMap Coded.invented = ls.map InventedLabel.text ∧
      ls.Nodup ∧ ∀ l ∈ ls, l.Belongs unit none 0 (codes.map Coded.command) := by
  have hdeclarations := h.declarations
  have hscoped := h.scoped
  obtain ⟨-, -, -, hlowered⟩ := h
  refine ⟨_, flatMap_invented hlowered hscoped, nodup_inventions ?_ ?_,
    fun l hl => belongs_of_mem_inventions hl⟩
  · rw [hdeclarations]
    exact hfunctions
  · intro s hs
    cases hs

/-- Where the owner of a label of a program comes from. -/
def InventedLabel.Comes (units functions : List String) (l : InventedLabel) : Prop :=
  match l.kind with
  | .comparison _ => l.owner ∈ units
  | _ => l.owner ∈ functions

theorem InventedLabel.Belongs.comes {unit : String} {cs : List Command} {l : InventedLabel}
    (h : l.Belongs unit none 0 cs) : l.Comes [unit] (declarationsOf cs) := by
  obtain ⟨owner, kind⟩ := l
  cases kind with
  | localsLoop | localsEnd => exact h
  | comparison n => exact List.mem_singleton.mpr h.1
  | returnAddress n =>
    rcases h with hdeclared | ⟨s, hs, -, -⟩
    · exact hdeclared
    · cases hs

theorem InventedLabel.Comes.mono {units units' functions functions' : List String}
    {l : InventedLabel} (h : l.Comes units functions) (hunits : ∀ u ∈ units, u ∈ units')
    (hfunctions : ∀ f ∈ functions, f ∈ functions') : l.Comes units' functions' := by
  obtain ⟨owner, kind⟩ := l
  cases kind with
  | comparison n => exact hunits owner h
  | _ => exact hfunctions owner h

/-- Labels of different origin are different. -/
theorem InventedLabel.Comes.ne {units units' functions functions' : List String}
    {l l' : InventedLabel} (h : l.Comes units functions) (h' : l'.Comes units' functions')
    (hunits : ∀ u ∈ units, u ∉ units') (hfunctions : ∀ f ∈ functions, f ∉ functions') :
    l ≠ l' := by
  rintro rfl
  obtain ⟨owner, kind⟩ := l
  cases kind with
  | comparison n => exact hunits owner h h'
  | _ => exact hfunctions owner h h'

/-- The labels invented for a program, unit by unit. The induction carries where the owners come
from. -/
theorem IsProgramCode.exists_inventions {scope : StaticScope} {units : List (String × String)}
    {parts : List (List Coded)} (h : IsProgramCode scope units parts)
    (hnames : (units.map Prod.fst).Nodup)
    (hfunctions : (units.flatMap fun u => declaredIn u.1 u.2).Nodup) :
    ∃ ls : List InventedLabel, parts.flatten.flatMap Coded.invented = ls.map InventedLabel.text ∧
      ls.Nodup ∧ ∀ l ∈ ls,
        l.Comes (units.map Prod.fst) (units.flatMap fun u => declaredIn u.1 u.2) := by
  induction h with
  | nil => exact ⟨[], rfl, List.nodup_nil, fun l hl => by cases hl⟩
  | @cons u codes units parts hunit hothers ih =>
    rw [List.map_cons, List.nodup_cons] at hnames
    rw [List.flatMap_cons, List.nodup_append] at hfunctions
    obtain ⟨hfirst, hlater, hdisjoint⟩ := hfunctions
    obtain ⟨ls, hls, hnodup, hbelongs⟩ := hunit.exists_inventions hfirst
    obtain ⟨ls', hls', hnodup', hcomes'⟩ := ih hnames.2 hlater
    have hcomes : ∀ l ∈ ls, l.Comes [u.1] (declaredIn u.1 u.2) := by
      intro l hl
      have hl := (hbelongs l hl).comes
      rwa [hunit.declarations] at hl
    refine ⟨ls ++ ls', ?_, List.nodup_append.mpr ⟨hnodup, hnodup', ?_⟩, ?_⟩
    · rw [List.flatten_cons, List.flatMap_append, List.map_append, hls, hls']
    · intro l hl l' hl'
      refine (hcomes l hl).ne (hcomes' l' hl') ?_ ?_
      · intro name hname
        rw [List.mem_singleton.mp hname]
        exact hnames.1
      · exact fun f hf hf' => hdisjoint f hf f hf' rfl
    · intro l hl
      rcases List.mem_append.mp hl with hl | hl
      · refine (hcomes l hl).mono ?_ fun f hf => ?_
        · intro name hname
          rw [List.mem_singleton.mp hname]
          exact List.mem_cons_self
        · exact List.mem_append_left _ hf
      · refine (hcomes' l hl).mono (fun name hname => List.mem_cons_of_mem _ hname) fun f hf => ?_
        exact List.mem_append_right _ hf

end HackVm
