/-
# Operations that log

A logged operation is run under settings and leaves the entries it wrote together with its
outcome. The entries are there also when the outcome is an error: they are what had been
written by then. Running one operation after another puts the second one's entries behind
the first one's, and an error ends the run.

The settings reach every place that writes, so that a message is made only when it is
wanted. Nothing but the writing reads them: `Logged` gives no way to ask for them, and an
operation built from the operations below cannot let its outcome depend on them.
-/

import ElectiveCalculus.Log.Settings

namespace ElectiveCalculus.Log

/-- What a run leaves: the entries written, oldest first, and the outcome. -/
structure Run (ε α : Type) where
  log : List Entry
  outcome : Except ε α
  deriving Repr

/-- An operation that may log and may fail. -/
def Logged (ε α : Type) : Type := Settings → Run ε α

namespace Logged

variable {δ ε α β : Type}

/-- Runs an operation under settings. -/
def run (operation : Logged ε α) (settings : Settings) : Run ε α := operation settings

/-- The operation that writes nothing and has a given outcome. -/
def ofExcept (outcome : Except ε α) : Logged ε α := fun _ => ⟨[], outcome⟩

/-- Runs one operation and, unless it failed, another one on its result. -/
protected def bind (first : Logged ε α) (next : α → Logged ε β) : Logged ε β := fun settings =>
  let ran := first.run settings
  match ran.outcome with
  | .error error => ⟨ran.log, .error error⟩
  | .ok result =>
    let continued := (next result).run settings
    ⟨ran.log ++ continued.log, continued.outcome⟩

instance : Monad (Logged ε) where
  pure result := ofExcept (.ok result)
  bind := Logged.bind

/-- Fails with an error. -/
def fail (error : ε) : Logged ε α := ofExcept (.error error)

/-- Writes one entry, when the settings ask for it. -/
def write (level : Level) (component : Component) (message : Unit → Text) :
    Logged ε Unit :=
  fun settings => ⟨Id.run (settings.record level component message), .ok ()⟩

/-- Writes one entry about an equation, when the settings ask for it. -/
def writeEquation (level : Level) (component : Component) (heading : Text)
    (equation : Unit → Text) : Logged ε Unit :=
  fun settings => ⟨Id.run (settings.recordEquation level component heading equation), .ok ()⟩

/-- The same operation with its errors restated. -/
def mapError (restate : δ → ε) (operation : Logged δ α) : Logged ε α := fun settings =>
  let ran := operation.run settings
  ⟨ran.log, ran.outcome.mapError restate⟩

/-! ## What a run leaves behind

Each operation is described by its log and its outcome under any settings, so that facts
about composed operations follow without unfolding `Logged`. -/

@[simp] theorem run_ofExcept (outcome : Except ε α) (settings : Settings) :
    (ofExcept outcome).run settings = ⟨[], outcome⟩ := rfl

@[simp] theorem run_pure (result : α) (settings : Settings) :
    (pure result : Logged ε α).run settings = ⟨[], .ok result⟩ := rfl

@[simp] theorem run_fail (error : ε) (settings : Settings) :
    (fail error : Logged ε α).run settings = ⟨[], .error error⟩ := rfl

/-- Writing an entry leaves that entry when it is enabled, and never fails. -/
@[simp] theorem run_write (level : Level) (component : Component) (message : Unit → Text)
    (settings : Settings) :
    (write level component message : Logged ε Unit).run settings =
      ⟨if settings.isEnabled level component then [⟨level, component, message ()⟩] else [],
        .ok ()⟩ := by
  simp only [run, write, Settings.record]
  split <;> rfl

/-- Writing an entry about an equation leaves its heading and its text. -/
@[simp] theorem run_writeEquation (level : Level) (component : Component) (heading : Text)
    (equation : Unit → Text) (settings : Settings) :
    (writeEquation level component heading equation : Logged ε Unit).run settings =
      ⟨if settings.isEnabled level component then
          [⟨level, component, heading ++ ": " ++ equation ()⟩] else [],
        .ok ()⟩ := by
  simp only [run, writeEquation, Settings.recordEquation, Settings.record]
  split <;> rfl

/-- An operation that fails ends the run of whatever should come after it. -/
theorem run_bind_of_error {first : Logged ε α} {settings : Settings} {error : ε}
    (next : α → Logged ε β) (failed : (first.run settings).outcome = .error error) :
    (first >>= next).run settings = ⟨(first.run settings).log, .error error⟩ := by
  change (first.bind next).run settings = _
  simp only [Logged.bind, run] at failed ⊢
  rw [failed]

/-- After an operation that succeeds its continuation runs, and their logs are joined. -/
theorem run_bind_of_ok {first : Logged ε α} {settings : Settings} {result : α}
    (next : α → Logged ε β) (succeeded : (first.run settings).outcome = .ok result) :
    (first >>= next).run settings =
      ⟨(first.run settings).log ++ ((next result).run settings).log,
        ((next result).run settings).outcome⟩ := by
  change (first.bind next).run settings = _
  simp only [Logged.bind, run] at succeeded ⊢
  rw [succeeded]

/-- The outcome of two operations is that of the second on the result of the first. -/
theorem outcome_bind (first : Logged ε α) (next : α → Logged ε β) (settings : Settings) :
    ((first >>= next).run settings).outcome =
      (first.run settings).outcome.bind fun result => ((next result).run settings).outcome := by
  cases ended : (first.run settings).outcome with
  | error error => rw [run_bind_of_error next ended]; rfl
  | ok result => rw [run_bind_of_ok next ended]; rfl

/-- Returning the result of an operation leaves what the operation leaves. -/
private theorem bind_pure_eq (operation : Logged ε α) : operation >>= pure = operation := by
  funext settings
  change (operation >>= pure).run settings = operation.run settings
  cases ended : (operation.run settings).outcome with
  | error error => rw [run_bind_of_error _ ended, ← ended]
  | ok result => rw [run_bind_of_ok _ ended, run_pure, List.append_nil, ← ended]

/-- The grouping of three operations does not matter. -/
private theorem bind_assoc_eq {γ : Type} (first : Logged ε α) (second : α → Logged ε β)
    (third : β → Logged ε γ) :
    first >>= second >>= third = first >>= fun result => second result >>= third := by
  funext settings
  change (first >>= second >>= third).run settings =
    (first >>= fun result => second result >>= third).run settings
  cases ended : (first.run settings).outcome with
  | error error =>
    have stopped := run_bind_of_error second ended
    rw [run_bind_of_error _ ended, run_bind_of_error third (by rw [stopped]), stopped]
  | ok result =>
    have continued := run_bind_of_ok second ended
    rw [run_bind_of_ok _ ended]
    cases closed : ((second result).run settings).outcome with
    | error error =>
      rw [run_bind_of_error third (by rw [continued, closed]), continued,
        run_bind_of_error third closed]
    | ok value =>
      rw [run_bind_of_ok third (by rw [continued, closed]), continued,
        run_bind_of_ok third closed, List.append_assoc]

/-- Logged operations compose as monads should. -/
instance : LawfulMonad (Logged ε) :=
  LawfulMonad.mk' (Logged ε) bind_pure_eq (fun _ _ => rfl) bind_assoc_eq

end Logged

end ElectiveCalculus.Log
