/-
# Conjunction

Asserting two equations together forbids what either of them forbids. Both must range over
the same variables in the same order, since rows are compared by number. The rows are those
of the first table; a row that the second table lacks is forbidden there by nothing.
-/

import ElectiveCalculus.Equation.Rendering
import ElectiveCalculus.Log.Logged

namespace ElectiveCalculus.Equation

open Log

/-- Each row of the first table, forbidden where either table forbids it. -/
def union (first second : Equation) : Equation where
  scope := first.scope
  forbidden := first.forbidden.mapIdx fun row verdict =>
    verdict || second.forbidden.getD row false

/-- The equation that asserts both of two equations over the same variables. -/
def conjoin (first second : Equation) : Logged Error Equation := do
  if !sameVariables first.scope second.scope then
    Logged.fail (.variableMismatch first.scope second.scope)
  else
    let equation := first.union second
    Logged.writeEquation .trace .conjunction "Conjoined" fun () =>
      first.render ++ " & " ++ second.render ++ " => " ++ equation.render
    return equation

/-- The equation that asserts all of a list of equations, conjoined from the left. An empty
list has no variables to range over and is refused. -/
def conjoinAll : List Equation → Logged Error Equation
  | [] => Logged.fail (.variableMismatch [] [])
  | first :: rest => rest.foldlM conjoin first

/-- A row that both tables have is forbidden by the union when either table forbids it. -/
theorem forbids_union {first second : Equation} (assignment : Assignment)
    (inside : assignment.row < first.forbidden.size) :
    (first.union second).forbids assignment =
      (first.forbids assignment || second.forbids assignment) := by
  simp [forbids, union, Array.getD_eq_getD_getElem?, inside]

end ElectiveCalculus.Equation
