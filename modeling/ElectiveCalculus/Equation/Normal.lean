/-
# Normalization

Two expressions set equal forbid the assignments under which their values differ. The
table lists the variables it ranges over, which must be distinct letters and no more of
them than a limit allows, because the table doubles with each.

The variables are checked before anything is evaluated, their number first. Then every
assignment is tried, the left side before the right one, and as there is always at least
one assignment a symbol outside the variables is always found.
-/

import ElectiveCalculus.Equation.Rendering
import ElectiveCalculus.Log.Logged

namespace ElectiveCalculus

open Log

/-- How many variables a table may range over when nothing else is asked for. -/
def defaultVariableLimit : Int := 16

/-- The limit that was asked for, or the default one. -/
def limitInEffect (asked : Option Int) : Int := asked.getD defaultVariableLimit

/-- The first fault of a list of variables after those already seen: a name that is no
letter, or a letter that stands before. -/
def variableFault (seen : List SymbolName) :
    List SymbolName → Option (VariableFault × SymbolName)
  | [] => none
  | name :: rest =>
    if !SymbolName.isLetter name then some (.notSymbol, name)
    else if seen.contains name then some (.repeated, name)
    else variableFault (name :: seen) rest

/-- Admits the variables of a table. Their number is checked before their names. -/
def checkVariables (limit : Int) (scope : List SymbolName) : Except Error Unit :=
  if limit < scope.length then
    .error (.variableLimit scope.length limit)
  else
    match variableFault [] scope with
    | some (fault, name) => .error (.invalidVariables fault name scope)
    | none => .ok ()

namespace Equation

/-- The integers that stand for the bits of an assignment. -/
def bitValues (assignment : Assignment) : List Int :=
  assignment.map fun bit => if bit then 1 else 0

/-- Whether the two sides of an equation have different values under an assignment. -/
def sidesDiffer (lhs rhs : Expr) (scope : List SymbolName) (assignment : Assignment) :
    Except UnboundSymbol Bool := do
  let left ← lhs.evaluate scope (bitValues assignment)
  let right ← rhs.evaluate scope (bitValues assignment)
  return left - right != 0

/-- The table of an equation between two expressions over variables already admitted. -/
def tabulate (lhs rhs : Expr) (scope : List SymbolName) : Except UnboundSymbol Equation := do
  let forbidden ← (Assignment.all scope.length).mapM (sidesDiffer lhs rhs scope)
  return ⟨scope, forbidden.toArray⟩

/-- Reduces an equation between two expressions to its table over the variables. -/
def normalize (limit : Int) (lhs rhs : Expr) (scope : List SymbolName) :
    Logged Error Equation := do
  Logged.ofExcept (checkVariables limit scope)
  let equation ← Logged.ofExcept ((tabulate lhs rhs scope).mapError .unboundSymbol)
  Logged.writeEquation .debug .normalizer ("Normalized over " ++ Text.bracketed scope)
    fun () => equation.render
  return equation

end Equation

end ElectiveCalculus
