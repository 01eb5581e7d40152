/-
# Rendered equations

An equation is shown as the sum of the constituents that it forbids, set to zero. The
constituent of an assignment is the product of every variable whose bit is one and the
complement of every variable whose bit is zero. Over no variables there is one
constituent, the unit; and an equation that forbids nothing is shown as zero equal to
zero.

Rows are turned into assignments by `Assignment.ofIndex`, so for more variables than a
machine word has bits a constituent repeats the bits of the word.
-/

import ElectiveCalculus.Assignment.Indexing
import ElectiveCalculus.Equation.Basic

namespace ElectiveCalculus.Equation

/-- A variable or its complement, as a bit says. -/
def literal (name : SymbolName) (bit : Bool) : Expr :=
  if bit then .sym name else .not (.sym name)

/-- The constituent of an assignment, or the unit when no sign is left to write. -/
def renderConstituent (scope : List SymbolName) (assignment : Assignment) : Text :=
  match (scope.zip assignment).flatMap fun (name, bit) => (literal name bit).render with
  | [] => [CodeUnit.digitOne]
  | text => text

/-- The numbers of the forbidden rows in ascending order. -/
def forbiddenRows (equation : Equation) : List Nat :=
  (List.range equation.forbidden.size).filter fun row => equation.forbidden.getD row false

/-- The equation as a sum of forbidden constituents set to zero. -/
def render (equation : Equation) : Text :=
  let constituents := equation.forbiddenRows.map fun (row : Nat) =>
    renderConstituent equation.scope (.ofIndex row equation.scope.length)
  match constituents with
  | [] => "0 = 0"
  | _ => Text.join " + " constituents ++ " = 0"

end ElectiveCalculus.Equation
