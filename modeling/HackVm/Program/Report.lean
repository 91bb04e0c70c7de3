set_option autoImplicit false

/-! # Work that reports on its way

Long work says how far it has come, warns of what is doubtful, and may fail. A `Report`
holds the notices in the order in which they were given and the result; notices given before a
failure stay (`notices_bind_of_error`). `ReportT` is the same for work that also reads and
writes files. -/

namespace HackVm

/-- Something said on the way. -/
inductive Notice
  /-- How far the work has come; of interest only to those who ask. -/
  | progress (message : String)
  /-- Something doubtful that is no error. -/
  | warning (message : String)
  /-- Why the work as a whole has failed. -/
  | failure (message : String)
  deriving DecidableEq, Repr

namespace Notice

/-- The text of a warning. -/
def warning? : Notice → Option String
  | .warning message => some message
  | _ => none

/-- The line that a notice is shown as. Failures are always shown, the others on demand. -/
def line? (verbose : Bool) : Notice → Option String
  | .progress message => if verbose then some ("[vmtrans] " ++ message) else none
  | .warning message => if verbose then some ("[vmtrans] Warning: " ++ message) else none
  | .failure message => some message

/-- What a row of notices shows, each on a line of its own. -/
def text (verbose : Bool) (notices : List Notice) : String :=
  String.join ((notices.filterMap (line? verbose)).map (· ++ "\n"))

end Notice

/-- The notices given during some work, and its result. -/
structure Report (ε α : Type) where
  notices : List Notice
  result : Except ε α

namespace Report

variable {ε α β : Type}

instance : Monad (Report ε) where
  pure a := ⟨[], .ok a⟩
  bind r f :=
    match r.result with
    | .ok a => ⟨r.notices ++ (f a).notices, (f a).result⟩
    | .error e => ⟨r.notices, .error e⟩

instance : MonadExceptOf ε (Report ε) where
  throw e := ⟨[], .error e⟩
  tryCatch r handle :=
    match r.result with
    | .ok _ => r
    | .error e => ⟨r.notices ++ (handle e).notices, (handle e).result⟩

def note (n : Notice) : Report ε Unit := ⟨[n], .ok ()⟩

def progress (message : String) : Report ε Unit := note (.progress message)

def warn (message : String) : Report ε Unit := note (.warning message)

/-- A result without notices. -/
def ofExcept (r : Except ε α) : Report ε α := ⟨[], r⟩

/-- The warnings given during some work. -/
def warnings (r : Report ε α) : List String := r.notices.filterMap Notice.warning?

/-- The same work with its errors seen as those of a larger one. -/
def mapError {ε' : Type} (f : ε → ε') (r : Report ε α) : Report ε' α :=
  ⟨r.notices, r.result.mapError f⟩

@[ext] theorem ext {r s : Report ε α} (hn : r.notices = s.notices) (hr : r.result = s.result) :
    r = s := by
  cases r; cases s; simp_all

@[simp] theorem notices_pure (a : α) : (pure a : Report ε α).notices = [] := rfl

@[simp] theorem result_pure (a : α) : (pure a : Report ε α).result = .ok a := rfl

theorem bind_of_ok {r : Report ε α} {a : α} (h : r.result = .ok a) (f : α → Report ε β) :
    r >>= f = ⟨r.notices ++ (f a).notices, (f a).result⟩ := by
  simp only [bind, h]

theorem bind_of_error {r : Report ε α} {e : ε} (h : r.result = .error e) (f : α → Report ε β) :
    r >>= f = ⟨r.notices, .error e⟩ := by
  simp only [bind, h]

/-- What was said before a failure stays. -/
theorem notices_bind_of_error {r : Report ε α} {e : ε} (h : r.result = .error e)
    (f : α → Report ε β) : (r >>= f).notices = r.notices := by
  rw [bind_of_error h]

theorem bind_pure_id (r : Report ε α) : (r >>= fun a => pure (id a)) = r := by
  cases h : r.result with
  | ok a => rw [bind_of_ok h]; ext <;> simp [h]
  | error e => rw [bind_of_error h]; ext <;> simp [h]

theorem bind_assoc' {γ : Type} (r : Report ε α) (f : α → Report ε β) (g : β → Report ε γ) :
    r >>= f >>= g = r >>= fun a => f a >>= g := by
  cases h : r.result with
  | error e => rw [bind_of_error h, bind_of_error (r := ⟨_, _⟩) rfl, bind_of_error h]
  | ok a =>
    rw [bind_of_ok h, bind_of_ok h]
    cases hf : (f a).result with
    | error e => rw [bind_of_error (r := ⟨_, _⟩) rfl, bind_of_error hf]
    | ok b =>
      rw [bind_of_ok (r := ⟨_, _⟩) rfl, bind_of_ok hf]
      simp [List.append_assoc]

instance : LawfulMonad (Report ε) :=
  LawfulMonad.mk' _ bind_pure_id (fun _ _ => rfl) bind_assoc'

end Report

/-! ## With other effects -/

/-- Work that reports on its way and has the effects of `m`. -/
def ReportT (ε : Type) (m : Type → Type) (α : Type) : Type := m (Report ε α)

namespace ReportT

variable {ε : Type} {m : Type → Type} [Monad m] {α β : Type}

/-- Does the work. -/
def run (x : ReportT ε m α) : m (Report ε α) := x

instance : Monad (ReportT ε m) where
  pure a := (pure (pure a) : m (Report ε _))
  bind x f := show m (Report ε _) from do
    let r ← x.run
    match r.result with
    | .ok a =>
      let s ← (f a).run
      return ⟨r.notices ++ s.notices, s.result⟩
    | .error e => return ⟨r.notices, .error e⟩

instance : MonadExceptOf ε (ReportT ε m) where
  throw e := (pure ⟨[], .error e⟩ : m (Report ε _))
  tryCatch x handle := show m (Report ε _) from do
    let r ← x.run
    match r.result with
    | .ok _ => return r
    | .error e =>
      let s ← (handle e).run
      return ⟨r.notices ++ s.notices, s.result⟩

instance : MonadLift m (ReportT ε m) where
  monadLift x := show m (Report ε _) from return ⟨[], .ok (← x)⟩

instance : MonadLift (Report ε) (ReportT ε m) where
  monadLift r := (pure r : m (Report ε _))

def note (n : Notice) : ReportT ε m Unit := (Report.note n : Report ε Unit)

def progress (message : String) : ReportT ε m Unit := note (.progress message)

end ReportT

end HackVm
