/-
# The program

The program takes a command and its arguments, carries the command out and reports: one line
of output and a code of zero, or lines of diagnosis and a code of one. A command that fails
has printed nothing, because output is made from its result alone.

Help comes before everything else. Then the arguments are read, whatever the command, so an
option without a value is reported even where the command is unknown.
-/

import ElectiveCalculus.CommandLine.Arguments
import ElectiveCalculus.CommandLine.Usage
import ElectiveCalculus.Inference.Conclusion

namespace ElectiveCalculus.CommandLine

open Log

/-- Why a command was not carried out. -/
inductive Fault where
  | missingValue (option : ValuedOption)
  | missingExpression
  | missingEquation
  | missingPremises
  | missingVariables
  | calculus (error : Error)
  deriving DecidableEq, Repr

/-- A fault in words. -/
def Fault.message : Fault → Text
  | .missingValue option => "Missing value for " ++ option.spelling
  | .missingExpression => "Missing expression argument"
  | .missingEquation => "Missing equation argument"
  | .missingPremises => "Missing premise arguments"
  | .missingVariables => "Missing " ++ ValuedOption.scope.spelling
  | .calculus error => error.message

/-- Where a line of the program goes. -/
inductive Channel where
  | output
  | diagnosis
  deriving DecidableEq, Repr

/-- What the program prints, in order, and the code it ends with. -/
structure Report where
  code : Nat
  lines : List (Channel × Text)
  deriving DecidableEq, Repr

namespace Report

/-- The report of a command that was carried out. -/
def success (output : Text) : Report := ⟨0, [(.output, output)]⟩

/-- The report of a command that was not carried out. -/
def failure (fault : Fault) : Report := ⟨1, [(.diagnosis, "Error: " ++ fault.message)]⟩

/-- The report of a command that there is not. -/
def unrecognised (command : Text) : Report :=
  ⟨1, [(.diagnosis, "Unrecognised command '" ++ command ++ "'."),
    (.diagnosis, "Use \"elective help\" for usage information")]⟩

end Report

/-- The commands that work on arguments. -/
inductive Command where
  | parse
  | normalize
  | infer
  deriving DecidableEq, Repr

namespace Command

/-- The name under which a command is called. -/
def name : Command → Text
  | .parse => "parse"
  | .normalize => "normalize"
  | .infer => "infer"

/-- The command of a given name, if there is one. -/
def ofName? (name : Text) : Option Command :=
  [parse, normalize, infer].find? fun command => command.name == name

/-- Reads an expression and renders it again. -/
def runParse (arguments : Arguments) : Logged Fault Text :=
  match arguments.positional with
  | [] => Logged.fail .missingExpression
  | input :: _ => do
    let expr ← (Expr.read input).mapError .calculus
    return expr.render

/-- Reduces an equation to its table and renders that. -/
def runNormalize (arguments : Arguments) : Logged Fault Text :=
  match arguments.positional, arguments.scope with
  | [], _ => Logged.fail .missingEquation
  | _ :: _, none => Logged.fail .missingVariables
  | input :: _, some scope => Logged.mapError .calculus do
    let sides ← Sides.readEquation input
    let equation ← Equation.normalize defaultVariableLimit sides.lhs sides.rhs scope
    return equation.render

/-- Draws the conclusion of all positional arguments and renders it. Every premise is split
before the first one is read. -/
def runInfer (arguments : Arguments) : Logged Fault Text :=
  match arguments.positional, arguments.scope with
  | [], _ => Logged.fail .missingPremises
  | _ :: _, none => Logged.fail .missingVariables
  | inputs, some scope => Logged.mapError .calculus do
    let premises ← Logged.ofExcept ((inputs.mapM Sides.split).mapError .parse)
    let inference ←
      Inference.draw defaultVariableLimit premises scope (arguments.eliminated.getD [])
    return inference.text

/-- Carries out a command on its arguments; the result is the line to print. -/
def run : Command → Arguments → Logged Fault Text
  | .parse => runParse
  | .normalize => runNormalize
  | .infer => runInfer

end Command

/-- Runs a command by its name on what stands behind it. -/
def runCommand (command : Text) (rest : List Text) (settings : Settings) :
    List Entry × Report :=
  match Arguments.read rest, Command.ofName? command with
  | .error option, _ => ([], .failure (.missingValue option))
  | .ok _, none => ([], .unrecognised command)
  | .ok arguments, some command =>
    let ran := (command.run arguments).run settings
    match ran.outcome with
    | .ok output => (ran.log, .success output)
    | .error fault => (ran.log, .failure fault)

/-- An argument that asks for help wherever it stands. -/
def asksForHelp (argument : Text) : Bool := argument == "-h" || argument == "--help"

/-- Runs the program on its arguments. What is logged is written before anything is
printed. -/
def run (arguments : List Text) (settings : Settings) : List Entry × Report :=
  match arguments with
  | [] => ([], .success usage)
  | command :: rest =>
    if arguments.any asksForHelp || command == "help" then ([], .success usage)
    else runCommand command rest settings

end ElectiveCalculus.CommandLine
