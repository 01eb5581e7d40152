/-
# What an inference is refused for

An inference succeeds exactly when it has premises, every premise can be read and is
about admitted variables, and the eliminated symbols are distinct variables. Otherwise
one fault is reported: the first one in the order of the steps, which is the order of
the premises before it is the order of the faults of one premise. The variables are
checked anew for every premise, so a fault of theirs is reported with the first
premise and behind the faults of its text, and nothing about the eliminated symbols is
reported while some premise is at fault.

The tables of the premises all range over the same variables. That they could not be
conjoined is therefore reported in one case only, where there is no premise at all.
-/

import ElectiveCalculus.Proofs.EliminationOrder
import ElectiveCalculus.Proofs.NormalizationFaults
import Mathlib

namespace ElectiveCalculus

variable {settings : Log.Settings} {limit : Int} {scope : List SymbolName}

/-! ## One premise -/

/-- Both sides of a premise can be read, and their symbols are variables of a scope. -/
def Premise.IsOver (premise : Premise) (scope : List SymbolName) : Prop :=
  ∃ lhs rhs : Expr, Expr.parse premise.lhs = .ok lhs ∧ Expr.parse premise.rhs = .ok rhs ∧
    ∀ name ∈ lhs.symbols ++ rhs.symbols, name ∈ scope

/-- What a premise is refused for over a list of variables, and the error that says so. -/
inductive PremiseFault (limit : Int) (scope : List SymbolName) (premise : Premise) : Error → Prop
  /-- The left side cannot be read. -/
  | lhs {cause : ParseError} (hlhs : Expr.parse premise.lhs = .error cause) :
      PremiseFault limit scope premise (.parse cause)
  /-- The left side can be read and the right side cannot. -/
  | rhs {lhs : Expr} {cause : ParseError} (hlhs : Expr.parse premise.lhs = .ok lhs)
      (hrhs : Expr.parse premise.rhs = .error cause) :
      PremiseFault limit scope premise (.parse cause)
  /-- Both sides can be read, and the equation between them cannot be normalized. -/
  | normalization {lhs rhs : Expr} {error : Error} (hlhs : Expr.parse premise.lhs = .ok lhs)
      (hrhs : Expr.parse premise.rhs = .ok rhs)
      (hfault : NormalizationFault limit lhs rhs scope error) :
      PremiseFault limit scope premise error

theorem Sides.outcome_read_eq_error_iff {sides : Sides Text} {error : Error} :
    (sides.read.run settings).outcome = .error error ↔
      (∃ cause, Expr.parse sides.lhs = .error cause ∧ error = .parse cause) ∨
        (∃ lhs, Expr.parse sides.lhs = .ok lhs) ∧
          ∃ cause, Expr.parse sides.rhs = .error cause ∧ error = .parse cause := by
  rw [Sides.read, Log.Logged.outcome_bind]
  simp only [Log.Logged.outcome_bind, Log.Logged.run_pure, Expr.outcome_read]
  refine combine_eq_error_iff.trans ?_
  simp only [mapError_eq_error_iff, mapError_eq_ok_iff]

namespace Premise

variable {premise : Premise}

theorem exists_outcome_normalize_iff :
    (∃ equation, ((Premise.normalize limit scope premise).run settings).outcome = .ok equation) ↔
      premise.IsOver scope ∧ Admissible limit scope := by
  simp only [outcome_normalize_eq_ok_iff]
  apply Iff.intro
  · intro h
    rcases h with ⟨_, lhs, rhs, ⟨hlhs, hrhs⟩, hadmitted, ⟨hleft, hright⟩, -⟩
    exact ⟨⟨lhs, rhs, hlhs, hrhs, List.forall_mem_append.mpr ⟨hleft, hright⟩⟩, hadmitted⟩
  · intro h
    rcases h with ⟨⟨lhs, rhs, hlhs, hrhs, hsymbols⟩, hadmitted⟩
    exact ⟨_, lhs, rhs, ⟨hlhs, hrhs⟩, hadmitted, List.forall_mem_append.mp hsymbols, rfl⟩

theorem outcome_normalize_eq_error_iff {error : Error} :
    ((Premise.normalize limit scope premise).run settings).outcome = .error error ↔
      PremiseFault limit scope premise error := by
  rw [Premise.normalize, Log.Logged.outcome_bind, bind_eq_error_iff,
    Sides.outcome_read_eq_error_iff]
  simp only [Equation.outcome_normalize_eq_error_iff]
  apply Iff.intro
  · intro h
    rcases h with (⟨cause, hlhs, rfl⟩ | ⟨⟨lhs, hlhs⟩, cause, hrhs, rfl⟩) |
      ⟨⟨lhs, rhs⟩, hread, hfault⟩
    · exact .lhs hlhs
    · exact .rhs hlhs hrhs
    · obtain ⟨hlhs, hrhs⟩ := Sides.outcome_read_eq_ok_iff.mp hread
      exact .normalization hlhs hrhs hfault
  · intro h
    cases h with
    | lhs hlhs => exact Or.inl (Or.inl ⟨_, hlhs, rfl⟩)
    | rhs hlhs hrhs => exact Or.inl (Or.inr ⟨⟨_, hlhs⟩, _, hrhs, rfl⟩)
    | normalization hlhs hrhs hfault =>
        exact Or.inr ⟨⟨_, _⟩, Sides.outcome_read_eq_ok_iff.mpr ⟨hlhs, hrhs⟩, hfault⟩

end Premise

namespace Inference

/-! ## All steps -/

/-- What an inference needs: some premises about admitted variables, and symbols to
eliminate that are distinct variables. -/
structure Drawable (limit : Int) (premises : List Premise) (scope eliminated : List SymbolName) :
    Prop where
  nonempty : premises ≠ []
  readable : ∀ premise ∈ premises, premise.IsOver scope
  admitted : Admissible limit scope
  distinct : eliminated.Nodup
  known : ∀ symbol ∈ eliminated, symbol ∈ scope

/-- What an inference is refused for, and the error that says so. -/
inductive InferenceFault (limit : Int) (scope eliminated : List SymbolName) :
    List Premise → Error → Prop
  /-- There is no premise, whatever else is wrong. -/
  | noPremise : InferenceFault limit scope eliminated [] (.variableMismatch [] [])
  /-- Some premise is refused, and all before it are not. -/
  | premise (before : List Premise) {premise : Premise} (after : List Premise) {error : Error}
      (hbefore : ∀ earlier ∈ before, earlier.IsOver scope ∧ Admissible limit scope)
      (hfault : PremiseFault limit scope premise error) :
      InferenceFault limit scope eliminated (before ++ premise :: after) error
  /-- No premise is refused, and a symbol to eliminate is unknown when its turn comes. -/
  | elimination {premises : List Premise} {before : List SymbolName} {symbol : SymbolName}
      (hpremises : premises ≠ []) (hreadable : ∀ premise ∈ premises, premise.IsOver scope)
      (hadmitted : Admissible limit scope)
      (hunknown : Equation.FirstUnknown scope eliminated before symbol) :
      InferenceFault limit scope eliminated premises
        (.unknownVariable symbol (scope.filter fun name => name ∉ before))

variable {premises : List Premise} {eliminated : List SymbolName}

theorem exists_outcome_draw_iff (settings : Log.Settings) :
    (∃ inference, ((draw limit premises scope eliminated).run settings).outcome =
        .ok inference) ↔
      Drawable limit premises scope eliminated := by
  apply Iff.intro
  · intro h
    rcases h with ⟨inference, hdrawn⟩
    obtain ⟨hnormal, -, heliminated, -⟩ := outcome_draw_eq_ok_iff.mp hdrawn
    obtain ⟨hadmitted, hscope, -, -⟩ := combined_spec hdrawn
    have hentries := (Equation.exists_outcome_eliminateAll_iff settings
      (hscope ▸ hadmitted.distinct)).mp ⟨_, heliminated⟩
    rw [hscope] at hentries
    refine ⟨premises_ne_nil hdrawn, fun premise hpremise => ?_, hadmitted, hentries.1, hentries.2⟩
    obtain ⟨equation, -, hequation⟩ := exists_of_forall₂ hnormal premise hpremise
    exact (Premise.exists_outcome_normalize_iff.mp ⟨equation, hequation⟩).1
  · intro h
    have hpremises : ∀ premise ∈ premises, ∃ equation,
        ((Premise.normalize limit scope premise).run settings).outcome = .ok equation :=
      fun premise hpremise =>
        Premise.exists_outcome_normalize_iff.mpr ⟨h.readable premise hpremise, h.admitted⟩
    obtain ⟨equations, hequations⟩ := exists_mapM_eq_ok_iff.mpr hpremises
    have hnormal := mapM_eq_ok_iff.mp hequations
    obtain ⟨combined, hcombined, -, hscope, -⟩ := exists_combined h.nonempty hnormal
    have hdistinct : combined.scope.Nodup := hscope ▸ h.admitted.distinct
    obtain ⟨conclusion, hconclusion⟩ :=
      (Equation.exists_outcome_eliminateAll_iff settings hdistinct).mpr
        ⟨h.distinct, hscope ▸ h.known⟩
    exact ⟨⟨equations, combined, conclusion, conclusion.render⟩,
      outcome_draw_eq_ok_iff.mpr ⟨hnormal, hcombined, hconclusion, rfl⟩⟩

/-- Behind premises that are not refused, only the elimination can fail. -/
theorem outcome_draw_eq_error_iff_of_normal {equations : List Equation} {error : Error}
    (hpremises : premises ≠ [])
    (hequations : (premises.mapM fun premise =>
      ((Premise.normalize limit scope premise).run settings).outcome) = .ok equations) :
    ((draw limit premises scope eliminated).run settings).outcome = .error error ↔
      ∃ before symbol, Equation.FirstUnknown scope eliminated before symbol ∧
        error = .unknownVariable symbol (scope.filter fun name => name ∉ before) := by
  obtain ⟨combined, hcombined, hadmitted, hscope, hcomplete, -⟩ :=
    exists_combined hpremises (mapM_eq_ok_iff.mp hequations)
  have hdistinct : combined.scope.Nodup := hscope ▸ hadmitted.distinct
  have heliminated : ((combined.eliminateAll eliminated).run settings).outcome = .error error ↔ _ :=
    Equation.outcome_eliminateAll_eq_error_iff hcomplete hdistinct
  rw [hscope] at heliminated
  rw [← heliminated, outcome_draw, hequations]
  simp only [Except.bind, hcombined]
  cases ((combined.eliminateAll eliminated).run settings).outcome <;> simp

/-- An inference fails exactly where it is refused, with the error that says what for. -/
theorem outcome_draw_eq_error_iff {error : Error} :
    ((draw limit premises scope eliminated).run settings).outcome = .error error ↔
      InferenceFault limit scope eliminated premises error := by
  apply Iff.intro
  · intro hfails
    cases hsteps : premises.mapM fun premise =>
        ((Premise.normalize limit scope premise).run settings).outcome with
    | error cause =>
        rw [outcome_draw, hsteps] at hfails
        obtain rfl := Except.error.inj hfails
        obtain ⟨before, premise, after, rfl, hbefore, hfault⟩ := mapM_eq_error_iff.mp hsteps
        exact .premise before after
          (fun earlier hearlier => Premise.exists_outcome_normalize_iff.mp (hbefore _ hearlier))
          (Premise.outcome_normalize_eq_error_iff.mp hfault)
    | ok equations =>
        by_cases hpremises : premises = []
        · subst hpremises
          cases hfails
          exact .noPremise
        · have hnormal : ∀ premise ∈ premises, premise.IsOver scope ∧ Admissible limit scope :=
            fun premise hpremise => Premise.exists_outcome_normalize_iff.mp
              (exists_mapM_eq_ok_iff.mp ⟨_, hsteps⟩ premise hpremise)
          obtain ⟨premise, hpremise⟩ := List.exists_mem_of_ne_nil premises hpremises
          obtain ⟨before, symbol, hunknown, rfl⟩ :=
            (outcome_draw_eq_error_iff_of_normal hpremises hsteps).mp hfails
          exact .elimination hpremises (fun other hother => (hnormal other hother).1)
            (hnormal premise hpremise).2 hunknown
  · intro h
    cases h with
    | noPremise => rfl
    | @premise before premise after error hbefore hfault =>
        have hsteps : ((before ++ premise :: after).mapM fun premise =>
            ((Premise.normalize limit scope premise).run settings).outcome) = .error error :=
          mapM_eq_error_iff.mpr ⟨before, premise, after, rfl,
            fun earlier hearlier =>
              Premise.exists_outcome_normalize_iff.mpr (hbefore earlier hearlier),
            Premise.outcome_normalize_eq_error_iff.mpr hfault⟩
        rw [outcome_draw, hsteps]
        rfl
    | elimination hpremises hreadable hadmitted hunknown =>
        obtain ⟨equations, hsteps⟩ := exists_mapM_eq_ok_iff.mpr fun premise hpremise =>
          Premise.exists_outcome_normalize_iff.mpr ⟨hreadable premise hpremise, hadmitted⟩
        exact (outcome_draw_eq_error_iff_of_normal hpremises hsteps).mpr ⟨_, _, hunknown, rfl⟩

/-- An inference succeeds exactly when it has some premises, each of which can be read and is
about admitted variables, and distinct variables to eliminate. Otherwise the first fault is
reported, and that tables could not be conjoined only where there are no premises. -/
theorem first_fault_is_reported (limit : Int) (premises : List Premise)
    (scope eliminated : List SymbolName) (settings : Log.Settings) :
    ((∃ inference, ((draw limit premises scope eliminated).run settings).outcome =
        .ok inference) ↔
      Drawable limit premises scope eliminated) ∧
    (∀ error, ((draw limit premises scope eliminated).run settings).outcome = .error error ↔
      InferenceFault limit scope eliminated premises error) ∧
    ∀ left right, ((draw limit premises scope eliminated).run settings).outcome =
        .error (.variableMismatch left right) ↔
      premises = [] ∧ left = [] ∧ right = [] := by
  refine ⟨exists_outcome_draw_iff settings, fun error => outcome_draw_eq_error_iff, ?_⟩
  intro left right
  rw [outcome_draw_eq_error_iff]
  apply Iff.intro
  · intro h
    cases h with
    | noPremise => exact ⟨rfl, rfl, rfl⟩
    | premise before after hbefore hfault =>
        cases hfault with
        | normalization hlhs hrhs hfault => cases hfault
  · intro h
    rcases h with ⟨rfl, rfl, rfl⟩
    exact .noPremise

/-- The right side of the second premise is at fault. That its left side has a symbol that is
no variable, that the third premise is empty and that x is eliminated twice goes unreported. -/
theorem first_fault_is_reported_stray :
    ((draw 16 [⟨"x", "xy"⟩, ⟨"yw", "y)"⟩, ⟨"", "0"⟩] ["x", "y"] ["x", "x"]).run .off).outcome =
        .error (.parse ⟨.unexpectedUnit CodeUnit.closeParen, "y)", 1⟩) := by
  have hbefore : ∀ earlier ∈ [(⟨"x", "xy"⟩ : Premise)],
      Premise.IsOver earlier ["x", "y"] ∧ Admissible 16 ["x", "y"] := by
    intro earlier hearlier
    obtain rfl := List.mem_singleton.mp hearlier
    exact ⟨⟨.sym "x", .product (.sym "x") (.sym "y"), by cbv, by cbv, by decide⟩,
      by decide, by decide, by decide⟩
  have hfault : PremiseFault 16 ["x", "y"] ⟨"yw", "y)"⟩
      (.parse ⟨.unexpectedUnit CodeUnit.closeParen, "y)", 1⟩) := by
    have hlhs : Expr.parse "yw" = .ok (.product (.sym "y") (.sym "w")) := by cbv
    have hrhs : Expr.parse "y)" =
        .error ⟨.unexpectedUnit CodeUnit.closeParen, "y)", 1⟩ := by cbv
    exact .rhs hlhs hrhs
  exact ((first_fault_is_reported 16 _ ["x", "y"] ["x", "x"] .off).2.1 _).mpr
    (.premise [⟨"x", "xy"⟩] [⟨"", "0"⟩] hbefore hfault)

end Inference

end ElectiveCalculus
