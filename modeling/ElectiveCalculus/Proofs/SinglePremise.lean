/-
# Inferring from one premise

From one premise, with nothing to eliminate, the premise itself is inferred. A program that is
given one equation and variables therefore reports the same whether it is asked to normalize the
equation or to infer from it, also when the equation or the variables are at fault: the equation
is cut and read in the same order, and of several faults the same one is met first.
-/

import ElectiveCalculus.Proofs.ArgumentOrder
import ElectiveCalculus.Proofs.Conclusion
import Mathlib

namespace ElectiveCalculus

variable {settings : Log.Settings}

namespace Inference

theorem outcome_draw_singleton {limit : Int} {scope : List SymbolName} {premise : Premise} :
    ((draw limit [premise] scope []).run settings).outcome =
      ((Premise.normalize limit scope premise).run settings).outcome.map fun equation =>
        ⟨[equation], equation, equation, equation.render⟩ := by
  rw [outcome_draw, List.mapM_cons, List.mapM_nil]
  cases ((Premise.normalize limit scope premise).run settings).outcome <;> rfl

end Inference

/-- An equation that is read and then normalized is cut into a premise and normalized as that. -/
theorem Sides.readEquation_bind_normalize (limit : Int) (scope : List SymbolName)
    (input : Text) :
    (readEquation input >>= fun sides => Equation.normalize limit sides.lhs sides.rhs scope) =
      Log.Logged.ofExcept ((split input).mapError .parse) >>= Premise.normalize limit scope := by
  rw [readEquation, bind_assoc]
  rfl

theorem Log.Logged.outcome_mapError {δ ε α : Type} (restate : δ → ε)
    (operation : Log.Logged δ α) :
    ((operation.mapError restate).run settings).outcome =
      (operation.run settings).outcome.mapError restate := rfl

namespace CommandLine

/-! ## What commands come to -/

/-- The report on what a command came to. -/
def Report.ofOutcome : Except Fault Text → Report
  | .ok output => .success output
  | .error fault => .failure fault

namespace Command

@[simp] theorem ofName?_name (command : Command) : ofName? command.name = some command := by
  cases command <;> decide

theorem name_ne_help (command : Command) : command.name ≠ "help" := by
  cases command <;> decide

/-- A command is reported on by what it came to, which may be that its arguments could not be
read. -/
theorem snd_runCommand_name (command : Command) (rest : List Text) :
    (runCommand command.name rest settings).2 =
      .ofOutcome (((Arguments.read rest).mapError .missingValue).bind fun arguments =>
        ((command.run arguments).run settings).outcome) := by
  rw [runCommand, ofName?_name]
  cases Arguments.read rest with
  | error option => rfl
  | ok arguments =>
      simp only [Except.mapError, Except.bind]
      cases ((command.run arguments).run settings).outcome <;> rfl

/-- A command that cuts its input first, works on the pieces and renders the result. -/
theorem outcome_cut_bind {pieces α : Type} (cut : Except ParseError pieces)
    (work : pieces → Log.Logged Error α) (render : α → Text) :
    ((Log.Logged.mapError Fault.calculus (Log.Logged.ofExcept (cut.mapError .parse) >>=
        fun found => work found >>= fun result => pure (render result))).run settings).outcome =
      ((cut.mapError .parse).bind fun found =>
        ((work found).run settings).outcome.map render).mapError .calculus := by
  rw [Log.Logged.outcome_mapError, Log.Logged.outcome_bind, Log.Logged.run_ofExcept]
  congr 2
  funext found
  rw [Log.Logged.outcome_bind]
  cases ((work found).run settings).outcome <;> rfl

/-- Normalizing cuts the first argument into a premise, and normalizes that. -/
theorem outcome_normalize (input : Text) (others scope : List Text)
    (eliminated : Option (List Text)) :
    ((Command.normalize.run ⟨input :: others, some scope, eliminated⟩).run settings).outcome =
      (((Sides.split input).mapError .parse).bind fun premise =>
        ((Premise.normalize defaultVariableLimit scope premise).run settings).outcome.map
          Equation.render).mapError .calculus := by
  have hsteps : Command.normalize.run ⟨input :: others, some scope, eliminated⟩ =
      Log.Logged.mapError .calculus ((Sides.readEquation input >>= fun sides =>
        Equation.normalize defaultVariableLimit sides.lhs sides.rhs scope) >>=
          fun equation => pure equation.render) := by
    rw [bind_assoc]
    rfl
  rw [hsteps, Sides.readEquation_bind_normalize, bind_assoc]
  exact outcome_cut_bind _ _ _

/-- Inferring cuts all arguments into premises, and draws the conclusion of those. -/
theorem outcome_infer (input : Text) (others scope : List Text)
    (eliminated : Option (List Text)) :
    ((Command.infer.run ⟨input :: others, some scope, eliminated⟩).run settings).outcome =
      ((((input :: others).mapM Sides.split).mapError .parse).bind fun premises =>
        ((Inference.draw defaultVariableLimit premises scope (eliminated.getD [])).run
          settings).outcome.map Inference.text).mapError .calculus :=
  outcome_cut_bind _ _ _

/-- Inferring from one argument alone, with nothing to eliminate, comes to what normalizing it
does. -/
theorem outcome_infer_singleton (input : Text) (scope : List Text)
    {eliminated : Option (List Text)} (heliminated : eliminated.getD [] = []) :
    ((Command.infer.run ⟨[input], some scope, eliminated⟩).run settings).outcome =
      (((Sides.split input).mapError .parse).bind fun premise =>
        ((Premise.normalize defaultVariableLimit scope premise).run settings).outcome.map
          Equation.render).mapError .calculus := by
  rw [outcome_infer, heliminated, List.mapM_cons, List.mapM_nil]
  cases Sides.split input with
  | error cause => rfl
  | ok premise =>
      show (((Inference.draw defaultVariableLimit [premise] scope []).run
        settings).outcome.map Inference.text).mapError _ = _
      rw [Inference.outcome_draw_singleton]
      congr 1
      simp only [Except.mapError, Except.bind]
      cases ((Premise.normalize defaultVariableLimit scope premise).run settings).outcome <;> rfl

/-- With one equation and nothing to eliminate, inferring comes to what normalizing does, also
where the variables are missing. -/
theorem outcome_infer_eq_outcome_normalize {arguments : Arguments} {input : Text}
    (hsingle : arguments.positional = [input]) (hnone : arguments.eliminated.getD [] = []) :
    ((Command.infer.run arguments).run settings).outcome =
      ((Command.normalize.run arguments).run settings).outcome := by
  obtain ⟨positional, scope, eliminated⟩ := arguments
  obtain rfl : positional = [input] := hsingle
  cases scope with
  | none => rfl
  | some scope => rw [outcome_normalize, outcome_infer_singleton input scope hnone]

end Command

/-- One equation and some variables are reported on alike by normalizing the equation and by
inferring from it, whether or not anything is at fault in them. -/
theorem normalize_and_infer_report_alike {input value : Text}
    (hinput : input ≠ "-h" ∧ input ≠ "--help" ∧ input ≠ "--vars" ∧ input ≠ "--eliminate")
    (hvalue : value ≠ "-h" ∧ value ≠ "--help") (settings : Log.Settings) :
    (run ["normalize", input, "--vars", value] settings).2 =
      (run ["infer", input, "--vars", value] settings).2 := by
  obtain ⟨hshort, hlong, hscope, heliminate⟩ := hinput
  have hplain : ∀ option : ValuedOption, input ≠ option.spelling := by
    intro option
    cases option with
    | scope => exact hscope
    | eliminate => exact heliminate
  have hrest : ∀ argument ∈ [input, "--vars", value], argument ≠ "-h" ∧ argument ≠ "--help" := by
    simp only [List.forall_mem_cons]
    exact ⟨⟨hshort, hlong⟩, by decide, hvalue, List.forall_mem_nil _⟩
  have hread : Arguments.read [input, "--vars", value] =
      .ok ⟨[input], some (Arguments.names value), none⟩ :=
    Arguments.read_written [.positional input hplain, .valued .scope value]
  have hrun (command : Command) (hname : command.name ≠ "-h" ∧ command.name ≠ "--help") :
      (run [command.name, input, "--vars", value] settings).2 =
        .ofOutcome ((command.run ⟨[input], some (Arguments.names value), none⟩).run
          settings).outcome := by
    rw [run_cons command.name_ne_help (List.forall_mem_cons.mpr ⟨hname, hrest⟩),
      Command.snd_runCommand_name, hread]
    rfl
  have hnormalize := hrun .normalize (by decide)
  have hinfer := hrun .infer (by decide)
  rw [Command.outcome_infer_eq_outcome_normalize rfl rfl] at hinfer
  exact hnormalize.trans hinfer.symm

/-- Two signs, and a variable that is repeated: on both routes the second sign is reported. -/
theorem normalize_and_infer_report_alike_second_sign :
    (run ["normalize", "x = y = z", "--vars", "x,x"] .off).2 =
        (run ["infer", "x = y = z", "--vars", "x,x"] .off).2 ∧
      (run ["infer", "x = y = z", "--vars", "x,x"] .off).2 =
        ⟨1, [(.diagnosis, "Error: Unexpected '=' at position 6 in 'x = y = z'")]⟩ := by
  refine ⟨normalize_and_infer_report_alike (by decide) (by decide) .off, ?_⟩
  have hread : Arguments.read ["x = y = z", "--vars", "x,x"] =
      .ok ⟨["x = y = z"], some ["x", "x"], none⟩ := by cbv
  have hsplit : Sides.split "x = y = z" =
      .error ⟨.unexpectedEqualsSign, "x = y = z", 6⟩ := by cbv
  have hwords : Fault.message (.calculus (.parse ⟨.unexpectedEqualsSign, "x = y = z", 6⟩)) =
      Text.ofString "Unexpected '=' at position 6 in 'x = y = z'" := by cbv
  have hdrawn : ((Command.infer.run ⟨["x = y = z"], some ["x", "x"], none⟩).run .off).outcome =
      .error (.calculus (.parse ⟨.unexpectedEqualsSign, "x = y = z", 6⟩)) := by
    rw [Command.outcome_infer_singleton _ _ rfl, hsplit]
    rfl
  have hreport : (run [Command.infer.name, "x = y = z", "--vars", "x,x"] .off).2 =
      .failure (.calculus (.parse ⟨.unexpectedEqualsSign, "x = y = z", 6⟩)) := by
    rw [run_cons (by decide) (by decide), Command.snd_runCommand_name, hread]
    exact congrArg Report.ofOutcome hdrawn
  refine hreport.trans ?_
  rw [Report.failure, hwords]
  decide

end CommandLine

end ElectiveCalculus
