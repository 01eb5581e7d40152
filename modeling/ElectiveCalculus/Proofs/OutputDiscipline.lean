/-
# What the program prints

Every run ends with a report. Either the program was asked for help or a command was carried
out, and one line of output is printed; or something was refused, and only diagnosis is printed:
one line that starts with `Error: `, or the two lines about a command that there is not. A
command can be refused at each of its stages. Its input may be missing, then the variables; a
text may not be two sides, a side may not be read, the variables may not be admitted, a symbol
may be unknown to them, and a symbol to eliminate may be unknown too. The result is printed
behind the last stage, so nothing has been printed when a stage fails.

How a run ends is said by the arguments alone. It does not depend on what is logged.
-/

import ElectiveCalculus.Proofs.InferenceFaults
import ElectiveCalculus.Proofs.LogNeutrality
import ElectiveCalculus.Proofs.RoundTrip
import ElectiveCalculus.Proofs.SinglePremise
import Mathlib

namespace ElectiveCalculus.CommandLine

open Block

variable {arguments : List Text} {settings : Log.Settings}

namespace Command

/-! ## What commands are refused for -/

/-- The fault of a command that was given nothing to work on. -/
def missingInput : Command → Fault
  | .parse => .missingExpression
  | .normalize => .missingEquation
  | .infer => .missingPremises

/-- What a command is refused for on arguments that could be read. At each stage the stages
before it have been passed. -/
inductive Refused : Command → Arguments → Fault → Prop
  /-- There is no input, whether or not there are variables. -/
  | noInput (command : Command) (scope eliminated : Option (List Text)) :
      Refused command ⟨[], scope, eliminated⟩ command.missingInput
  /-- There is input and there are no variables, which only an expression goes without. -/
  | noVariables {command : Command} (hcommand : command ≠ .parse) (input : Text)
      (others : List Text) (eliminated : Option (List Text)) :
      Refused command ⟨input :: others, none, eliminated⟩ .missingVariables
  /-- The input is no expression. -/
  | expression {input : Text} (others : List Text) (scope eliminated : Option (List Text))
      {cause : ParseError} (hcause : Expr.parse input = .error cause) :
      Refused .parse ⟨input :: others, scope, eliminated⟩ (.calculus (.parse cause))
  /-- The input to normalize is not two sides. -/
  | equation {input : Text} (others scope : List Text) (eliminated : Option (List Text))
      {cause : ParseError} (hcause : Sides.split input = .error cause) :
      Refused .normalize ⟨input :: others, some scope, eliminated⟩ (.calculus (.parse cause))
  /-- The input is two sides, and they are refused as a premise. -/
  | normalization {input : Text} (others : List Text) {scope : List Text}
      (eliminated : Option (List Text)) {premise : Premise} {error : Error}
      (hpremise : Sides.split input = .ok premise)
      (hfault : PremiseFault defaultVariableLimit scope premise error) :
      Refused .normalize ⟨input :: others, some scope, eliminated⟩ (.calculus error)
  /-- Some input to infer from is not two sides, and all before it are. -/
  | premise (before : List Text) {input : Text} (after scope : List Text)
      (eliminated : Option (List Text)) {cause : ParseError}
      (hbefore : ∀ earlier ∈ before, ∃ premise, Sides.split earlier = .ok premise)
      (hcause : Sides.split input = .error cause) :
      Refused .infer ⟨before ++ input :: after, some scope, eliminated⟩ (.calculus (.parse cause))
  /-- All inputs are two sides, and the inference from them is refused. -/
  | inference {inputs scope : List Text} {eliminated : Option (List Text)}
      {premises : List Premise} {error : Error} (hinputs : inputs ≠ [])
      (hpremises : List.Forall₂ (fun input premise => Sides.split input = .ok premise) inputs
        premises)
      (hfault : Inference.InferenceFault defaultVariableLimit scope (eliminated.getD []) premises
        error) :
      Refused .infer ⟨inputs, some scope, eliminated⟩ (.calculus error)

/-- What a command prints when it is carried out. An expression is printed as it stands, and an
equation and a conclusion as their tables. -/
inductive Prints : Command → Arguments → Text → Prop
  | expression {input : Text} (others : List Text) (scope eliminated : Option (List Text))
      {expr : Expr} (hread : Expr.parse input = .ok expr) :
      Prints .parse ⟨input :: others, scope, eliminated⟩ input
  | equation {input : Text} (others : List Text) {scope : List Text}
      (eliminated : Option (List Text)) {premise : Premise} {table : Equation}
      (hpremise : Sides.split input = .ok premise)
      (htable : ((Premise.normalize defaultVariableLimit scope premise).run .off).outcome =
        .ok table) :
      Prints .normalize ⟨input :: others, some scope, eliminated⟩ table.render
  | conclusion {inputs scope : List Text} {eliminated : Option (List Text)}
      {premises : List Premise} {inference : Inference} (hinputs : inputs ≠ [])
      (hpremises : List.Forall₂ (fun input premise => Sides.split input = .ok premise) inputs
        premises)
      (hdrawn : ((Inference.draw defaultVariableLimit premises scope (eliminated.getD [])).run
        .off).outcome = .ok inference) :
      Prints .infer ⟨inputs, some scope, eliminated⟩ inference.conclusion.render

/-! ## Running a command -/

theorem outcome_run_nil (command : Command) (scope eliminated : Option (List Text)) :
    ((command.run ⟨[], scope, eliminated⟩).run settings).outcome =
      .error command.missingInput := by
  cases command <;> rfl

theorem outcome_run_none {command : Command} (hcommand : command ≠ .parse) (input : Text)
    (others : List Text) (eliminated : Option (List Text)) :
    ((command.run ⟨input :: others, none, eliminated⟩).run settings).outcome =
      .error .missingVariables := by
  cases command with
  | parse => exact absurd rfl hcommand
  | normalize => rfl
  | infer => rfl

theorem outcome_parse (input : Text) (others : List Text) (scope eliminated : Option (List Text)) :
    ((Command.parse.run ⟨input :: others, scope, eliminated⟩).run settings).outcome =
      (((Expr.parse input).mapError .parse).map Expr.render).mapError .calculus := by
  have hsteps : Command.parse.run ⟨input :: others, scope, eliminated⟩ =
      (Expr.read input).mapError .calculus >>= fun expr => pure expr.render := rfl
  rw [hsteps, Log.Logged.outcome_bind, Log.Logged.outcome_mapError, Expr.outcome_read]
  cases Expr.parse input <;> rfl

variable {command : Command} {read : Arguments}

theorem Refused.outcome_eq {fault : Fault} (h : command.Refused read fault) :
    ((command.run read).run settings).outcome = .error fault := by
  cases h with
  | noInput command scope eliminated => exact outcome_run_nil command scope eliminated
  | noVariables hcommand input others eliminated =>
      exact outcome_run_none hcommand input others eliminated
  | expression others scope eliminated hcause =>
      rw [outcome_parse, hcause]
      rfl
  | equation others scope eliminated hcause =>
      rw [outcome_normalize, hcause]
      rfl
  | normalization others eliminated hpremise hfault =>
      rw [outcome_normalize, hpremise]
      simp only [Except.mapError, Except.bind]
      rw [Premise.outcome_normalize_eq_error_iff.mpr hfault]
      rfl
  | @premise before input after scope eliminated cause hbefore hcause =>
      have hsplit : (before ++ input :: after).mapM Sides.split = .error cause :=
        mapM_eq_error_iff.mpr ⟨before, input, after, rfl, hbefore, hcause⟩
      obtain ⟨first, others, hinputs⟩ := List.exists_cons_of_ne_nil
        (List.append_ne_nil_of_right_ne_nil before (List.cons_ne_nil input after))
      rw [hinputs] at hsplit ⊢
      rw [outcome_infer, hsplit]
      rfl
  | inference hinputs hpremises hfault =>
      obtain ⟨input, others, rfl⟩ := List.exists_cons_of_ne_nil hinputs
      rw [outcome_infer, mapM_eq_ok_iff.mpr hpremises]
      simp only [Except.mapError, Except.bind]
      rw [Inference.outcome_draw_eq_error_iff.mpr hfault]
      rfl

theorem Prints.outcome_eq {output : Text} (h : command.Prints read output) :
    ((command.run read).run settings).outcome = .ok output := by
  cases h with
  | expression others scope eliminated hread =>
      rw [outcome_parse, hread]
      exact congrArg Except.ok (Expr.render_of_parse hread)
  | equation others eliminated hpremise htable =>
      rw [← (Premise.neutral_normalize _ _ _).outcome settings] at htable
      rw [outcome_normalize, hpremise]
      simp only [Except.mapError, Except.bind, htable, Except.map]
  | conclusion hinputs hpremises hdrawn =>
      have htext := (Inference.outcome_draw_eq_ok_iff.mp hdrawn).2.2.2
      rw [← (Inference.neutral_draw _ _ _ _).outcome settings] at hdrawn
      obtain ⟨input, others, rfl⟩ := List.exists_cons_of_ne_nil hinputs
      rw [outcome_infer, mapM_eq_ok_iff.mpr hpremises]
      simp only [Except.mapError, Except.bind, hdrawn, Except.map, htext]

/-- On any arguments a command is refused or prints. The cases are the stages in their order:
the input, the variables, the cutting of the input, and what is done with the pieces. -/
theorem refused_or_prints (command : Command) (read : Arguments) :
    (∃ fault, command.Refused read fault) ∨ ∃ output, command.Prints read output := by
  obtain ⟨_ | ⟨input, others⟩, scope, eliminated⟩ := read
  · exact Or.inl ⟨_, .noInput command scope eliminated⟩
  cases command with
  | parse =>
      cases hread : Expr.parse input with
      | error cause => exact Or.inl ⟨_, .expression others scope eliminated hread⟩
      | ok expr => exact Or.inr ⟨_, .expression others scope eliminated hread⟩
  | normalize =>
      cases scope with
      | none => exact Or.inl ⟨_, .noVariables (by decide) input others eliminated⟩
      | some scope =>
          cases hsplit : Sides.split input with
          | error cause => exact Or.inl ⟨_, .equation others scope eliminated hsplit⟩
          | ok premise =>
              cases hnormal : ((Premise.normalize defaultVariableLimit scope premise).run
                  .off).outcome with
              | error error =>
                  exact Or.inl ⟨_, .normalization others eliminated hsplit
                    (Premise.outcome_normalize_eq_error_iff.mp hnormal)⟩
              | ok table => exact Or.inr ⟨_, .equation others eliminated hsplit hnormal⟩
  | infer =>
      cases scope with
      | none => exact Or.inl ⟨_, .noVariables (by decide) input others eliminated⟩
      | some scope =>
          cases hsplit : (input :: others).mapM Sides.split with
          | error cause =>
              obtain ⟨before, text, after, hinputs, hbefore, hcause⟩ := mapM_eq_error_iff.mp hsplit
              rw [hinputs]
              exact Or.inl ⟨_, .premise before after scope eliminated hbefore hcause⟩
          | ok premises =>
              have hpremises := mapM_eq_ok_iff.mp hsplit
              have hinputs := List.cons_ne_nil input others
              cases hdrawn : ((Inference.draw defaultVariableLimit premises scope
                  (eliminated.getD [])).run .off).outcome with
              | error error =>
                  exact Or.inl ⟨_, .inference hinputs hpremises
                    (Inference.outcome_draw_eq_error_iff.mp hdrawn)⟩
              | ok inference => exact Or.inr ⟨_, .conclusion hinputs hpremises hdrawn⟩

theorem ofName?_eq_none_iff {name : Text} :
    ofName? name = none ↔ ∀ command : Command, name ≠ command.name := by
  simp only [ofName?, List.find?_eq_none, beq_iff_eq]
  apply Iff.intro
  · intro h command hname
    exact h command (by cases command <;> decide) hname.symm
  · intro h command _ hname
    exact h command hname.symm

end Command

/-! ## Ends of runs -/

/-- The arguments call for help: there are none, or one of the two options for help is among
them, or they start with the command for it. -/
def CallsForHelp (arguments : List Text) : Prop :=
  arguments = [] ∨ (∃ argument ∈ arguments, argument = "-h" ∨ argument = "--help") ∨
    arguments.head? = some "help"

/-- How the program ends on its arguments. Where help is not asked for, the arguments behind the
command are blocks, or blocks and an option without its value. -/
inductive Ends : List Text → Report → Prop
  /-- Help is asked for. -/
  | help {arguments : List Text} (hhelp : CallsForHelp arguments) :
      Ends arguments (.success usage)
  /-- The last option lacks its value, whatever the command is. -/
  | missingValue {name : Text} {blocks : List Block} {option : ValuedOption}
      (hhelp : ¬ CallsForHelp (name :: (written blocks ++ [option.spelling]))) :
      Ends (name :: (written blocks ++ [option.spelling])) (.failure (.missingValue option))
  /-- There is no command of that name. -/
  | unrecognised {name : Text} {blocks : List Block}
      (hhelp : ¬ CallsForHelp (name :: written blocks))
      (hname : ∀ command : Command, name ≠ command.name) :
      Ends (name :: written blocks) (.unrecognised name)
  /-- The command is refused. -/
  | refused {command : Command} {blocks : List Block} {fault : Fault}
      (hhelp : ¬ CallsForHelp (command.name :: written blocks))
      (hrefused : command.Refused (collected blocks) fault) :
      Ends (command.name :: written blocks) (.failure fault)
  /-- The command is carried out. -/
  | carriedOut {command : Command} {blocks : List Block} {output : Text}
      (hhelp : ¬ CallsForHelp (command.name :: written blocks))
      (hprints : command.Prints (collected blocks) output) :
      Ends (command.name :: written blocks) (.success output)

theorem run_of_callsForHelp (hhelp : CallsForHelp arguments) :
    run arguments settings = ([], .success usage) := by
  cases arguments with
  | nil => rfl
  | cons name rest =>
      rw [run, if_pos]
      rcases hhelp with hnil | ⟨argument, hargument, hspelling⟩ | hhead
      · cases hnil
      · have hasks : asksForHelp argument = true := by
          rcases hspelling with rfl | rfl <;> decide
        rw [List.any_eq_true.mpr ⟨argument, hargument, hasks⟩, Bool.true_or]
      · obtain rfl := Option.some.inj hhead
        rw [beq_self_eq_true, Bool.or_true]

/-- Without a call for help there is a command, and it is run on what stands behind it. -/
theorem run_of_not_callsForHelp {name : Text} {rest : List Text}
    (hhelp : ¬ CallsForHelp (name :: rest)) :
    run (name :: rest) settings = runCommand name rest settings := by
  rw [CallsForHelp, not_or, not_or] at hhelp
  obtain ⟨-, hnone, hhead⟩ := hhelp
  apply run_cons
  · rintro rfl
    exact hhead rfl
  · intro argument hargument
    exact not_or.mp fun hspelling => hnone ⟨argument, hargument, hspelling⟩

theorem Ends.run_eq {report : Report} (h : Ends arguments report) :
    (run arguments settings).2 = report := by
  cases h with
  | help hhelp => rw [run_of_callsForHelp hhelp]
  | missingValue hhelp =>
      rw [run_of_not_callsForHelp hhelp, runCommand, Arguments.read_written_append]
  | unrecognised hhelp hname =>
      rw [run_of_not_callsForHelp hhelp, runCommand, Arguments.read_written,
        Command.ofName?_eq_none_iff.mpr hname]
  | refused hhelp hrefused =>
      rw [run_of_not_callsForHelp hhelp, Command.snd_runCommand_name, Arguments.read_written]
      exact congrArg Report.ofOutcome hrefused.outcome_eq
  | carriedOut hhelp hprints =>
      rw [run_of_not_callsForHelp hhelp, Command.snd_runCommand_name, Arguments.read_written]
      exact congrArg Report.ofOutcome hprints.outcome_eq

/-- The program ends in some way on any arguments. -/
theorem exists_ends (arguments : List Text) : ∃ report, Ends arguments report := by
  by_cases hhelp : CallsForHelp arguments
  · exact ⟨_, .help hhelp⟩
  obtain ⟨name, rest, rfl⟩ : ∃ name rest, arguments = name :: rest :=
    List.exists_cons_of_ne_nil fun hnil => hhelp (Or.inl hnil)
  obtain ⟨blocks, rfl | ⟨option, rfl⟩⟩ := Arguments.exists_blocks rest
  · by_cases hname : ∃ command : Command, name = command.name
    · obtain ⟨command, rfl⟩ := hname
      rcases command.refused_or_prints (collected blocks) with ⟨fault, h⟩ | ⟨output, h⟩
      · exact ⟨_, .refused hhelp h⟩
      · exact ⟨_, .carriedOut hhelp h⟩
    · exact ⟨_, .unrecognised hhelp (not_exists.mp hname)⟩
  · exact ⟨_, .missingValue hhelp⟩

theorem snd_run_eq_iff {report : Report} :
    (run arguments settings).2 = report ↔ Ends arguments report := by
  apply Iff.intro
  · intro h
    obtain ⟨other, hends⟩ := exists_ends arguments
    rwa [← hends.run_eq.symm.trans h]
  · exact Ends.run_eq

/-- A run ends in exactly one way, which the arguments decide, and is reported once: with one
line of output and code 0, or with code 1 and no output, either one line of diagnosis that
starts with `Error: ` or the two lines about a command that there is not. So nothing has been
printed when a command is refused, at whichever stage. -/
theorem every_run_is_reported_once (arguments : List Text) (settings : Log.Settings) :
    (∀ report, (run arguments settings).2 = report ↔ Ends arguments report) ∧
      ((∃ output, (run arguments settings).2 = ⟨0, [(.output, output)]⟩) ∨
        (∃ message, (run arguments settings).2 = ⟨1, [(.diagnosis, "Error: " ++ message)]⟩) ∨
        ∃ name rest, arguments = name :: rest ∧ (∀ command : Command, name ≠ command.name) ∧
          (run arguments settings).2 = ⟨1, [(.diagnosis, "Unrecognised command '" ++ name ++ "'."),
            (.diagnosis, "Use \"elective help\" for usage information")]⟩) := by
  refine ⟨fun report => snd_run_eq_iff, ?_⟩
  obtain ⟨report, hends⟩ := exists_ends arguments
  rw [hends.run_eq]
  cases hends with
  | help hhelp => exact Or.inl ⟨usage, rfl⟩
  | @missingValue name blocks option hhelp =>
      exact Or.inr (Or.inl ⟨Fault.message (.missingValue option), rfl⟩)
  | @unrecognised name blocks hhelp hname =>
      exact Or.inr (Or.inr ⟨name, written blocks, rfl, hname, rfl⟩)
  | @refused command blocks fault hhelp hrefused =>
      exact Or.inr (Or.inl ⟨fault.message, rfl⟩)
  | @carriedOut command blocks output hhelp hprints => exact Or.inl ⟨output, rfl⟩

end ElectiveCalculus.CommandLine
