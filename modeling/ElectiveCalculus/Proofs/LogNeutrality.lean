/-
# What logging leaves alone

An operation comes to the same outcome whatever is logged, and what it writes under some
settings is a selection from what it writes when everything is asked for: the entries that
the settings enable, in the order in which they stand there. This holds of the operations
that everything is built from, and it is kept when one operation runs after another, also
where an error ends the run. So it holds of every operation of the calculus on any inputs,
tables of the wrong length and repeated variables among them.

Which entries are enabled is said twice, by the settings that an environment is turned into
and by the environment itself.
-/

import ElectiveCalculus.Inference.Conclusion
import Mathlib

namespace ElectiveCalculus

namespace Log

variable {ε α β : Type}

/-! ## The entries an environment asks for -/

/-- The least level that an environment asks for; whatever names neither the finest nor the
coarsest level asks for the middle one. -/
def leastLevel (environment : String → Option Text) : Level :=
  if environment Settings.levelVariable = some ("TRACE" : Text) then .trace
  else if environment Settings.levelVariable = some ("INFO" : Text) then .info
  else .debug

/-- An environment asks for an entry: logging is on, the level of the entry is no finer than
the one asked for, and its component is listed if any list is given. -/
def Entry.Passes (environment : String → Option Text) (entry : Entry) : Prop :=
  environment Settings.enabledVariable = some ("true" : Text) ∧
    (leastLevel environment).rank ≤ entry.level.rank ∧
      ((environment Settings.filterVariable).getD [] = [] ∨
        ∃ piece ∈ Text.pieces CodeUnit.comma ((environment Settings.filterVariable).getD []),
          Text.trim piece = entry.component.name)

instance (environment : String → Option Text) (entry : Entry) :
    Decidable (entry.Passes environment) :=
  inferInstanceAs (Decidable (_ ∧ _ ∧ _))

/-- Logging on, the finest level, and no list of components. -/
def fullEnvironment : String → Option Text := fun name =>
  if name = Settings.enabledVariable then some ("true" : Text)
  else if name = Settings.levelVariable then some ("TRACE" : Text)
  else none

theorem ofEnvironment_fullEnvironment :
    Settings.ofEnvironment fullEnvironment = .everything := by
  decide

theorem level_ofEnvironment (environment : String → Option Text) :
    (Settings.ofEnvironment environment).level = leastLevel environment := by
  have hnamed (name : Text) : (Level.ofName? name).getD .debug =
      if name = "TRACE" then .trace else if name = "INFO" then .info else .debug := by
    by_cases htrace : name = "TRACE"
    · rw [if_pos htrace, htrace]
      rfl
    · by_cases hinfo : name = "INFO"
      · rw [if_neg htrace, if_pos hinfo, hinfo]
        rfl
      · by_cases hdebug : name = "DEBUG"
        · rw [if_neg htrace, if_neg hinfo, hdebug]
          rfl
        · have hnone : Level.ofName? name = none := by
            simp [Level.ofName?, Level.name, Ne.symm htrace, Ne.symm hinfo, Ne.symm hdebug]
          rw [if_neg htrace, if_neg hinfo, hnone, Option.getD_none]
  rw [leastLevel, Settings.ofEnvironment]
  cases environment Settings.levelVariable with
  | none => rfl
  | some name => simp only [Option.bind_some, Option.some.injEq, hnamed]

theorem components_ofEnvironment (environment : String → Option Text) :
    (Settings.ofEnvironment environment).components =
      if (environment Settings.filterVariable).getD [] = [] then none
      else some ((Text.pieces CodeUnit.comma
        ((environment Settings.filterVariable).getD [])).map Text.trim) := by
  rw [Settings.ofEnvironment]
  cases environment Settings.filterVariable with
  | none => rfl
  | some names => cases names <;> rfl

/-- The settings made from an environment enable the entries that it asks for. -/
theorem isEnabled_ofEnvironment_iff {environment : String → Option Text} {entry : Entry} :
    (Settings.ofEnvironment environment).isEnabled entry.level entry.component = true ↔
      entry.Passes environment := by
  rw [Settings.isEnabled, level_ofEnvironment, components_ofEnvironment, Entry.Passes]
  by_cases hlisted : (environment Settings.filterVariable).getD [] = []
  · simp [hlisted, Settings.ofEnvironment]
  · simp [hlisted, Settings.ofEnvironment, and_assoc]

namespace Logged

/-! ## Neutral operations -/

/-- An operation whose outcome does not depend on the settings and whose log under some
settings is selected from its full log. -/
structure Neutral (operation : Logged ε α) : Prop where
  outcome : ∀ settings : Settings,
    (operation.run settings).outcome = (operation.run .off).outcome
  log : ∀ settings : Settings, (operation.run settings).log =
    (operation.run .everything).log.filter fun entry =>
      settings.isEnabled entry.level entry.component

theorem Neutral.ofExcept (outcome : Except ε α) : (ofExcept outcome).Neutral where
  outcome _ := rfl
  log _ := rfl

theorem Neutral.pure (result : α) : (Pure.pure result : Logged ε α).Neutral :=
  .ofExcept (.ok result)

theorem Neutral.fail (error : ε) : (Logged.fail error : Logged ε α).Neutral :=
  .ofExcept (.error error)

theorem isEnabled_everything (level : Level) (component : Component) :
    Settings.everything.isEnabled level component = true := by
  cases level <;> rfl

theorem Neutral.write (level : Level) (component : Component) (message : Unit → Text) :
    (Logged.write level component message : Logged ε Unit).Neutral where
  outcome settings := by rw [run_write, run_write]
  log settings := by
    rw [run_write, run_write, if_pos (isEnabled_everything level component)]
    by_cases henabled : settings.isEnabled level component = true <;> simp [henabled]

theorem Neutral.writeEquation (level : Level) (component : Component) (heading : Text)
    (equation : Unit → Text) :
    (Logged.writeEquation level component heading equation : Logged ε Unit).Neutral :=
  .write level component fun () => heading ++ ": " ++ equation ()

/-- An error ends the run of two operations at the same place under any settings, so their
logs are cut at the same place too. -/
theorem Neutral.bind {first : Logged ε α} {next : α → Logged ε β} (hfirst : first.Neutral)
    (hnext : ∀ result, (next result).Neutral) : (first >>= next).Neutral := by
  cases ended : (first.run .off).outcome with
  | error error =>
      have hran (settings : Settings) : (first >>= next).run settings =
          ⟨(first.run settings).log, .error error⟩ :=
        run_bind_of_error next ((hfirst.outcome settings).trans ended)
      exact ⟨fun settings => by rw [hran, hran], fun settings => by rw [hran, hran, hfirst.log]⟩
  | ok result =>
      have hran (settings : Settings) : (first >>= next).run settings =
          ⟨(first.run settings).log ++ ((next result).run settings).log,
            ((next result).run settings).outcome⟩ :=
        run_bind_of_ok next ((hfirst.outcome settings).trans ended)
      apply Neutral.mk
      · intro settings
        rw [hran, hran]
        exact (hnext result).outcome settings
      · intro settings
        rw [hran, hran, List.filter_append, ← hfirst.log, ← (hnext result).log]

theorem Neutral.mapM {step : α → Logged ε β} (hstep : ∀ item, (step item).Neutral)
    (items : List α) : (items.mapM step).Neutral := by
  induction items with
  | nil => exact .pure []
  | cons item rest ih =>
      rw [List.mapM_cons]
      exact (hstep item).bind fun result => ih.bind fun results => .pure (result :: results)

theorem Neutral.foldlM {step : β → α → Logged ε β}
    (hstep : ∀ total item, (step total item).Neutral) (items : List α) (start : β) :
    (items.foldlM step start).Neutral := by
  induction items generalizing start with
  | nil => exact .pure start
  | cons item rest ih =>
      rw [List.foldlM_cons]
      exact (hstep start item).bind ih

/-- Under an environment an operation comes to the outcome that it has without logging, and
leaves those entries of its full log that the environment asks for. -/
def FollowsEnvironment (environment : String → Option Text) (operation : Logged ε α) : Prop :=
  (operation.run (.ofEnvironment environment)).outcome = (operation.run .off).outcome ∧
    (operation.run (.ofEnvironment environment)).log =
      (operation.run (.ofEnvironment fullEnvironment)).log.filter fun entry =>
        entry.Passes environment

theorem Neutral.followsEnvironment {operation : Logged ε α} (h : operation.Neutral)
    (environment : String → Option Text) : operation.FollowsEnvironment environment := by
  apply And.intro (h.outcome _)
  rw [h.log, ofEnvironment_fullEnvironment]
  congr 1
  funext entry
  rw [Bool.eq_iff_iff, isEnabled_ofEnvironment_iff, decide_eq_true_iff]

end Logged

end Log

/-! ## The operations of the calculus -/

open Log Logged

theorem Expr.neutral_read (input : Text) : (Expr.read input).Neutral :=
  (Neutral.ofExcept _).bind fun expr => (Neutral.write _ _ _).bind fun _ => .pure expr

theorem Sides.neutral_read (sides : Sides Text) : sides.read.Neutral :=
  (Expr.neutral_read sides.lhs).bind fun _ =>
    (Expr.neutral_read sides.rhs).bind fun _ => .pure _

theorem Sides.neutral_readEquation (input : Text) : (Sides.readEquation input).Neutral :=
  (Neutral.ofExcept _).bind Sides.neutral_read

namespace Equation

theorem neutral_normalize (limit : Int) (lhs rhs : Expr) (scope : List SymbolName) :
    (normalize limit lhs rhs scope).Neutral :=
  (Neutral.ofExcept _).bind fun _ => (Neutral.ofExcept _).bind fun equation =>
    (Neutral.writeEquation _ _ _ _).bind fun _ => .pure equation

theorem neutral_conjoin (first second : Equation) : (first.conjoin second).Neutral := by
  rw [conjoin]
  cases sameVariables first.scope second.scope with
  | false => exact .fail _
  | true => exact (Neutral.writeEquation _ _ _ _).bind fun _ => .pure _

theorem neutral_conjoinAll (equations : List Equation) : (conjoinAll equations).Neutral := by
  cases equations with
  | nil => exact .fail _
  | cons first rest => exact .foldlM neutral_conjoin rest first

theorem neutral_eliminate (equation : Equation) (symbol : SymbolName) :
    (equation.eliminate symbol).Neutral := by
  rw [eliminate]
  cases equation.scope.findIdx? (· == symbol) with
  | none => exact .fail _
  | some position => exact (Neutral.writeEquation _ _ _ _).bind fun _ => .pure _

theorem neutral_eliminateAll (equation : Equation) (symbols : List SymbolName) :
    (equation.eliminateAll symbols).Neutral :=
  .foldlM neutral_eliminate symbols equation

end Equation

theorem Premise.neutral_normalize (limit : Int) (scope : List SymbolName) (premise : Premise) :
    (Premise.normalize limit scope premise).Neutral :=
  (Sides.neutral_read premise).bind fun sides =>
    Equation.neutral_normalize limit sides.lhs sides.rhs scope

theorem Inference.neutral_draw (limit : Int) (premises : List Premise)
    (scope eliminated : List SymbolName) : (draw limit premises scope eliminated).Neutral :=
  (Neutral.mapM (Premise.neutral_normalize limit scope) premises).bind fun normalized =>
    (Equation.neutral_conjoinAll normalized).bind fun combined =>
      (combined.neutral_eliminateAll eliminated).bind fun _ =>
        (Neutral.write _ _ _).bind fun _ => .pure _

/-- Logging changes no outcome of any operation of the calculus, and an environment only
selects lines, each by its level and its component. The equations may be any tables over
any names. -/
theorem Log.Logged.logging_only_selects_lines (environment : String → Option Text) :
    (∀ input, (Expr.read input).FollowsEnvironment environment) ∧
      (∀ input, (Sides.readEquation input).FollowsEnvironment environment) ∧
      (∀ limit lhs rhs scope,
        (Equation.normalize limit lhs rhs scope).FollowsEnvironment environment) ∧
      (∀ first second : Equation, (first.conjoin second).FollowsEnvironment environment) ∧
      (∀ equations, (Equation.conjoinAll equations).FollowsEnvironment environment) ∧
      (∀ (equation : Equation) symbol,
        (equation.eliminate symbol).FollowsEnvironment environment) ∧
      (∀ (equation : Equation) symbols,
        (equation.eliminateAll symbols).FollowsEnvironment environment) ∧
      ∀ limit premises scope eliminated,
        (Inference.draw limit premises scope eliminated).FollowsEnvironment environment := by
  refine ⟨fun input => ?read, fun input => ?equation, fun limit lhs rhs scope => ?normalize,
    fun first second => ?conjoin, fun equations => ?conjoinAll,
    fun equation symbol => ?eliminate, fun equation symbols => ?eliminateAll,
    fun limit premises scope eliminated => ?draw⟩
  case read => exact (Expr.neutral_read input).followsEnvironment environment
  case equation => exact (Sides.neutral_readEquation input).followsEnvironment environment
  case normalize =>
    exact (Equation.neutral_normalize limit lhs rhs scope).followsEnvironment environment
  case conjoin => exact (first.neutral_conjoin second).followsEnvironment environment
  case conjoinAll => exact (Equation.neutral_conjoinAll equations).followsEnvironment environment
  case eliminate => exact (equation.neutral_eliminate symbol).followsEnvironment environment
  case eliminateAll =>
    exact (equation.neutral_eliminateAll symbols).followsEnvironment environment
  case draw =>
    exact (Inference.neutral_draw limit premises scope eliminated).followsEnvironment environment

end ElectiveCalculus
