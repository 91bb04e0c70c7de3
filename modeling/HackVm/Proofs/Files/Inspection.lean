import HackVm.Files.Build
import HackVm.Proofs.Program.Independence

set_option autoImplicit false

/-! # Work that only looks at files

Files are part of a state, and work with files passes the state on from access to access. Most of a
build only looks at files. `ReportT.Inspects` says so of some work: it leaves every state as it is,
and if it fails, then with an error of a given kind. Everything that work is put together with keeps
this, so all of a build but its last step inspects (`inspects_translatePath`).

The units of a program are collected in two steps: their files are found, then read
(`collectUnits_eq`). -/

namespace HackVm

namespace ReportT

/-! ## Laws -/

section

variable {ε : Type} {m : Type → Type} [Monad m] {α β γ : Type}

theorem run_bind (x : ReportT ε m α) (f : α → ReportT ε m β) :
    (x >>= f).run = x.run >>= fun r =>
      match r.result with
      | .ok a => (f a).run >>= fun r' => pure ⟨r.notices ++ r'.notices, r'.result⟩
      | .error e => pure ⟨r.notices, .error e⟩ := rfl

theorem bind_assoc [LawfulMonad m] (x : ReportT ε m α) (f : α → ReportT ε m β)
    (g : β → ReportT ε m γ) : x >>= f >>= g = x >>= fun a => f a >>= g := by
  show (x >>= f >>= g).run = (x >>= fun a => f a >>= g).run
  rw [run_bind, run_bind, run_bind, LawfulMonad.bind_assoc]
  refine congrArg _ (funext fun r => ?_)
  cases r.result with
  | error e => simp
  | ok a =>
    simp only [LawfulMonad.bind_assoc, pure_bind, run_bind]
    refine congrArg _ (funext fun r' => ?_)
    cases r'.result <;> simp

end

section

variable {S ε α β : Type}

/-- Does the work from a state on; gives the report and the state behind it. -/
def runFrom (x : ReportT ε (StateM S) α) (s : S) : Report ε α × S := StateT.run x.run s

/-- The result of the work from a state on. -/
def resultAt (x : ReportT ε (StateM S) α) (s : S) : Except ε α := (x.runFrom s).1.result

/-- The state behind the work. -/
def stateAt (x : ReportT ε (StateM S) α) (s : S) : S := (x.runFrom s).2

/-- The work from a state on gives a result and leaves a state. -/
def Yields (x : ReportT ε (StateM S) α) (s : S) (r : Except ε α) (s' : S) : Prop :=
  x.resultAt s = r ∧ x.stateAt s = s'

variable {x : ReportT ε (StateM S) α} {f : α → ReportT ε (StateM S) β} {s s' s'' : S}

/-! ## Steps one after the other -/

namespace Yields

theorem note (n : Notice) (s : S) : (note n : ReportT ε (StateM S) Unit).Yields s (.ok ()) s :=
  ⟨rfl, rfl⟩

theorem ofState {y : StateM S α} {a : α} (h : y.run s = (a, s')) :
    (y : ReportT ε (StateM S) α).Yields s (.ok a) s' :=
  ⟨congrArg (fun r : α × S => (.ok r.1 : Except ε α)) h, congrArg Prod.snd h⟩

theorem exists_apply_eq {r : Except ε α} (hx : x.Yields s r s') :
    ∃ notices, x s = (⟨notices, r⟩, s') :=
  ⟨(x.runFrom s).1.notices, Prod.ext (Report.ext rfl hx.1) hx.2⟩

theorem bind {a : α} {r : Except ε β} (hx : x.Yields s (.ok a) s') (hf : (f a).Yields s' r s'') :
    (x >>= f).Yields s r s'' := by
  obtain ⟨notices, hx⟩ := hx.exists_apply_eq
  have hrun : (x >>= f).runFrom s = (⟨notices ++ ((f a).runFrom s').1.notices,
      (f a).resultAt s'⟩, (f a).stateAt s') := by
    simp only [runFrom, run, Bind.bind, StateT.run, StateT.bind, hx]
    rfl
  exact ⟨(congrArg (·.1.result) hrun).trans hf.1, (congrArg Prod.snd hrun).trans hf.2⟩

theorem bind_error {e : ε} (hx : x.Yields s (.error e) s') :
    (x >>= f).Yields s (.error e) s' := by
  obtain ⟨notices, hx⟩ := hx.exists_apply_eq
  have hrun : (x >>= f).runFrom s = (⟨notices, .error e⟩, s') := by
    simp only [runFrom, run, Bind.bind, StateT.run, StateT.bind, hx]
    rfl
  exact ⟨congrArg (·.1.result) hrun, (congrArg Prod.snd hrun :)⟩

theorem tryCatch {handle : ε → ReportT ε (StateM S) α} {a : α} (hx : x.Yields s (.ok a) s') :
    (MonadExcept.tryCatch x handle).Yields s (.ok a) s' := by
  obtain ⟨notices, hx⟩ := hx.exists_apply_eq
  have hrun : (MonadExcept.tryCatch x handle).runFrom s = (⟨notices, .ok a⟩, s') := by
    simp only [runFrom, run, MonadExcept.tryCatch, tryCatchThe, MonadExceptOf.tryCatch, Bind.bind,
      StateT.run, StateT.bind, hx]
    rfl
  exact ⟨congrArg (·.1.result) hrun, (congrArg Prod.snd hrun :)⟩

theorem tryCatch_error {handle : ε → ReportT ε (StateM S) α} {e : ε} {r : Except ε α}
    (hx : x.Yields s (.error e) s') (hhandle : (handle e).Yields s' r s'') :
    (MonadExcept.tryCatch x handle).Yields s r s'' := by
  obtain ⟨notices, hx⟩ := hx.exists_apply_eq
  have hrun : (MonadExcept.tryCatch x handle).runFrom s =
      (⟨notices ++ ((handle e).runFrom s').1.notices, (handle e).resultAt s'⟩,
        (handle e).stateAt s') := by
    simp only [runFrom, run, MonadExcept.tryCatch, tryCatchThe, MonadExceptOf.tryCatch, Bind.bind,
      StateT.run, StateT.bind, hx]
    rfl
  exact ⟨(congrArg (·.1.result) hrun).trans hhandle.1, (congrArg Prod.snd hrun).trans hhandle.2⟩

end Yields

/-! ## Inspecting -/

/-- The work leaves every state as it is; it gives a value, or fails with an error of a kind. -/
def Inspects (E : ε → Prop) (x : ReportT ε (StateM S) α) : Prop :=
  ∀ s, (∃ a, x.Yields s (.ok a) s) ∨ ∃ e, E e ∧ x.Yields s (.error e) s

namespace Inspects

variable {E : ε → Prop}

theorem mono {E' : ε → Prop} (hx : x.Inspects E) (h : ∀ e, E e → E' e) : x.Inspects E' :=
  fun s => (hx s).imp_right fun ⟨e, he, hyields⟩ => ⟨e, h e he, hyields⟩

theorem pure (a : α) : (pure a : ReportT ε (StateM S) α).Inspects E :=
  fun _ => .inl ⟨a, rfl, rfl⟩

theorem throw {e : ε} (h : E e) : (throw e : ReportT ε (StateM S) α).Inspects E :=
  fun _ => .inr ⟨e, h, rfl, rfl⟩

theorem note (n : Notice) : (note n : ReportT ε (StateM S) Unit).Inspects E :=
  fun s => .inl ⟨(), .note n s⟩

theorem ofReport {r : Report ε α} (h : ∀ e, r.result = .error e → E e) :
    (r : ReportT ε (StateM S) α).Inspects E := by
  intro s
  cases hresult : r.result with
  | ok a => exact .inl ⟨a, hresult, rfl⟩
  | error e => exact .inr ⟨e, h e hresult, hresult, rfl⟩

/-- An access that leaves the state as it is. -/
theorem ofState {y : StateM S α} (h : ∀ s, (y.run s).2 = s) :
    (y : ReportT ε (StateM S) α).Inspects E :=
  fun s => .inl ⟨(y.run s).1, rfl, h s⟩

theorem bind (hx : x.Inspects E) (hf : ∀ a, (f a).Inspects E) : (x >>= f).Inspects E := by
  intro s
  rcases hx s with ⟨a, ha⟩ | ⟨e, he, herror⟩
  · rcases hf a s with ⟨b, hb⟩ | ⟨e, he, herror⟩
    · exact .inl ⟨b, ha.bind hb⟩
    · exact .inr ⟨e, he, ha.bind herror⟩
  · exact .inr ⟨e, he, herror.bind_error⟩

theorem map {γ : Type} (hx : x.Inspects E) (g : α → γ) : (g <$> x).Inspects E :=
  hx.bind fun a => .pure (g a)

theorem mapM {γ : Type} {f : γ → ReportT ε (StateM S) α} (hf : ∀ c, (f c).Inspects E)
    (cs : List γ) : (cs.mapM f).Inspects E := by
  -- the elements are gathered in a second list, in reverse order
  have hloop : ∀ as : List α, (List.mapM.loop f cs as).Inspects E := by
    induction cs with
    | nil => exact fun as => .pure as.reverse
    | cons c cs ih => exact fun as => (hf c).bind fun a => ih (a :: as)
  exact hloop []

theorem filterM {γ : Type} {p : γ → ReportT ε (StateM S) Bool} (hp : ∀ c, (p c).Inspects E)
    (cs : List γ) : (cs.filterM p).Inspects E := by
  have hloop : ∀ as : List γ, (List.filterAuxM p cs as).Inspects E := by
    induction cs with
    | nil => exact fun as => .pure as
    | cons c cs ih => exact fun as => (hp c).bind fun b => ih _
  exact (hloop []).bind fun as => .pure as.reverse

end Inspects

end

end ReportT

/-! ## Finding files -/

section

variable {m : Type → Type} [Monad m] [FileSystem m]

/-- The files of the units of a program, in their order. -/
def unitFiles (input : String) : ReportT BuildError m (List Path) := do
  let path := Path.ofString input
  match ← kindOf path with
  | some .directory =>
    let files ← sourceFiles path
    if files.isEmpty then throw (.noUnits input)
    pure files
  | some .file =>
    if path.suffix ≠ sourceSuffix then throw (.notAUnit input)
    pure [path]
  | none => throw (.notFound input)

theorem collectUnits_eq [LawfulMonad m] (input : String) :
    (collectUnits input : ReportT BuildError m _) = unitFiles input >>= (·.mapM readSource) := by
  rw [unitFiles, ReportT.bind_assoc]
  refine congrArg (kindOf (Path.ofString input) >>= ·) (funext fun kind => ?_)
  cases kind with
  | none => rfl
  | some kind =>
    cases kind with
    | directory =>
      simp only [ReportT.bind_assoc]
      refine congrArg _ (funext fun files => ?_)
      split <;> simp only [ReportT.bind_assoc]
    | file =>
      dsimp only
      split <;> simp only [ReportT.bind_assoc]

end

/-! ## Looking at files -/

/-- Looking at files leaves the state as it is, and so does a write that is refused. -/
structure FileSystem.Steady (S : Type) [FileSystem (StateM S)] : Prop where
  kind : ∀ path (s : S), ((FileSystem.kind path : StateM S _).run s).2 = s
  entries : ∀ path (s : S), ((FileSystem.entries path : StateM S _).run s).2 = s
  ownName : ∀ path (s : S), ((FileSystem.ownName path : StateM S _).run s).2 = s
  read : ∀ path (s : S), ((FileSystem.read path : StateM S _).run s).2 = s
  write : ∀ path text (s : S) e, ((FileSystem.write path text : StateM S _).run s).1 = .error e →
    ((FileSystem.write path text : StateM S _).run s).2 = s

/-- No blank setting is at fault. -/
def BuildError.NotBlank (e : BuildError) : Prop := e.isBlank = false

section

variable {S : Type}

theorem inspects_granted {α : Type} {path : String} {answer : StateM S (Except AccessError α)}
    (h : ∀ s, (answer.run s).2 = s) :
    (granted path answer : ReportT BuildError (StateM S) α).Inspects BuildError.NotBlank := by
  refine .bind (.ofState h) fun result => ?_
  cases result with
  | ok a => exact .pure a
  | error cause => exact .throw rfl

variable [FileSystem (StateM S)]

theorem inspects_kindOf (steady : FileSystem.Steady S) (path : Path) :
    (kindOf path : ReportT BuildError (StateM S) _).Inspects BuildError.NotBlank :=
  inspects_granted (steady.kind path)

theorem inspects_isSourceFile (steady : FileSystem.Steady S) (path : Path) :
    (isSourceFile path : ReportT BuildError (StateM S) _).Inspects BuildError.NotBlank :=
  (inspects_kindOf steady path).bind fun _ => .pure _

theorem inspects_sourceFiles (steady : FileSystem.Steady S) (directory : Path) :
    (sourceFiles directory : ReportT BuildError (StateM S) _).Inspects BuildError.NotBlank :=
  .bind (.ofState (steady.entries directory)) fun _ =>
    (ReportT.Inspects.filterM (inspects_isSourceFile steady) _).bind fun _ => .pure _

theorem inspects_readSource (steady : FileSystem.Steady S) (file : Path) :
    (readSource file : ReportT BuildError (StateM S) _).Inspects BuildError.NotBlank := by
  refine .bind (.note _) fun _ => (inspects_granted (steady.read file)).bind fun bytes => ?_
  refine .bind (.ofReport fun e he => ?_) fun text => .pure _
  have herror : decodeText bytes = .error e := he
  unfold decodeText at herror
  split at herror
  · cases herror
  · cases herror
    rfl

theorem inspects_unitFiles (steady : FileSystem.Steady S) (input : String) :
    (unitFiles input : ReportT BuildError (StateM S) _).Inspects BuildError.NotBlank := by
  refine (inspects_kindOf steady _).bind fun kind => ?_
  cases kind with
  | none => exact .throw rfl
  | some kind =>
    cases kind with
    | directory =>
      refine (inspects_sourceFiles steady _).bind fun files => ?_
      split
      · exact .bind (.throw rfl) fun _ => .pure _
      · exact .pure _
    | file =>
      dsimp only
      split
      · exact .bind (.throw rfl) fun _ => .pure _
      · exact .pure _

theorem inspects_collectUnits (steady : FileSystem.Steady S) (input : String) :
    (collectUnits input : ReportT BuildError (StateM S) _).Inspects BuildError.NotBlank := by
  rw [collectUnits_eq]
  exact (inspects_unitFiles steady input).bind fun files =>
    .mapM (inspects_readSource steady) files

/-- A program that starts with a named function fails without fault of a blank setting. -/
theorem notBlank_of_translateUnits {settings : Settings} {units : List (String × String)}
    {bootstrap : Bool} {e : ProgramError} (hentry : settings.entry ≠ .blank)
    (h : (translateUnits settings units bootstrap).result = .error e) :
    (BuildError.program e).NotBlank := by
  have hne : e ≠ .blankEntry → (BuildError.program e).NotBlank := by
    intro hne
    cases e with
    | blankEntry => exact absurd rfl hne
    | _ => rfl
  refine hne ?_
  rintro rfl
  cases hscope : StaticScope.ofSetting settings.staticScope with
  | error e =>
    have hresult : (Report.ofExcept (StaticScope.ofSetting settings.staticScope)).result =
        .error e := hscope
    rw [translateUnits, Report.bind_of_error hresult] at h
    cases h
    unfold StaticScope.ofSetting at hscope
    split at hscope <;> cases hscope
  | ok scope =>
    rcases (translateUnits_eq_error_iff hscope).mp h with
      ⟨before, u, after, -, -, hu⟩ | ⟨-, -, -, hblank⟩
    · exact translateString_ne_entryError hscope u.2 u.1 .blank hu
    · cases hsetting : settings.entry with
      | blank => exact hentry hsetting
      | given name =>
        rw [hsetting] at hblank
        cases hblank

/-- All of a build but its last step looks at files only, and finds fault with a blank setting only
if the program starts with one. -/
theorem inspects_translatePath (steady : FileSystem.Steady S) (settings : Settings)
    (input : String) :
    (translatePath settings input : ReportT BuildError (StateM S) _).Inspects
      fun e => settings.entry ≠ .blank → e.NotBlank := by
  have htranslate : ∀ units bootstrap,
      (((translateUnits settings units bootstrap).mapError BuildError.program :
        Report BuildError String) : ReportT BuildError (StateM S) String).Inspects
        fun e => settings.entry ≠ .blank → e.NotBlank := by
    intro units bootstrap
    refine .ofReport fun e he hentry => ?_
    cases hresult : (translateUnits settings units bootstrap).result with
    | ok text =>
      rw [Report.mapError, hresult] at he
      cases he
    | error e' =>
      rw [Report.mapError, hresult] at he
      cases he
      exact notBlank_of_translateUnits hentry hresult
  refine ((inspects_collectUnits steady input).mono fun e he _ => he).bind fun units => ?_
  cases settings.bootstrap with
  | some choice => exact .bind (.pure choice) (htranslate units)
  | none =>
    exact ((inspects_kindOf steady _).mono fun e he _ => he).bind fun kind =>
      .bind (.pure _) (htranslate units)

theorem inspects_defaultOutput (steady : FileSystem.Steady S) (input : String) :
    (defaultOutput input : ReportT BuildError (StateM S) _).Inspects BuildError.NotBlank := by
  refine (inspects_kindOf steady _).bind fun kind => ?_
  split
  · exact .bind (.ofState (steady.ownName _)) fun name => .pure _
  · exact .pure _

end

end HackVm
