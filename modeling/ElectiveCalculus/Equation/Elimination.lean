/-
# Elimination

Eliminating a symbol keeps what an equation says about the other variables: an assignment
to them stays forbidden when both values of the symbol are forbidden with it, so that no
value of the symbol could save it. The other variables keep their order, and the symbol's
bit is put back at its own place to find the two rows.
-/

import ElectiveCalculus.Equation.Rendering
import ElectiveCalculus.Log.Logged

namespace ElectiveCalculus.Equation

open Log

/-- The equation without the variable at a position, forbidding what is forbidden for both
of that variable's values. The table is complete, whatever the given one lacked. -/
def project (equation : Equation) (position : Nat) : Equation :=
  ofVerdicts (equation.scope.eraseIdx position) fun rest =>
    equation.forbids (rest.insertIdx position false) &&
      equation.forbids (rest.insertIdx position true)

/-- Eliminates the first variable of a given name. -/
def eliminate (equation : Equation) (symbol : SymbolName) : Logged Error Equation :=
  match equation.scope.findIdx? (· == symbol) with
  | none => Logged.fail (.unknownVariable symbol equation.scope)
  | some position => do
    let result := equation.project position
    Logged.writeEquation .debug .elimination ("Eliminated '" ++ symbol ++ "'")
      fun () => result.render
    return result

/-- Eliminates several symbols one after another. -/
def eliminateAll (equation : Equation) (symbols : List SymbolName) : Logged Error Equation :=
  symbols.foldlM eliminate equation

end ElectiveCalculus.Equation
