/-
# Complete tables

A table is complete when it has one row for every assignment to its variables. The tables
that the calculus makes itself are made from verdicts, and those are complete and give the
verdicts back.
-/

import ElectiveCalculus.Assignment.Lemmas
import ElectiveCalculus.Equation.Basic
import Mathlib

namespace ElectiveCalculus.Equation

/-- A table with one row for every assignment to the variables. -/
def IsComplete (equation : Equation) : Prop :=
  equation.forbidden.size = 2 ^ equation.scope.length

/-- A complete table has the row of every assignment to its variables. -/
theorem IsComplete.getElem?_row {equation : Equation} (hcomplete : equation.IsComplete)
    {assignment : Assignment} (hwidth : assignment.length = equation.scope.length) :
    equation.forbidden[assignment.row]? = some (equation.forbids assignment) := by
  have hrow : assignment.row < equation.forbidden.size := by
    rw [hcomplete, ← hwidth]
    exact assignment.row_lt
  rw [forbids, Array.getD_eq_getD_getElem?, Array.getElem?_eq_getElem hrow, Option.getD_some]

/-- A table made from verdicts is complete. -/
theorem isComplete_ofVerdicts (scope : List SymbolName) (verdict : Assignment → Bool) :
    (ofVerdicts scope verdict).IsComplete := by
  simp [IsComplete, ofVerdicts]

/-- A table made from verdicts gives them back on the assignments to its variables. -/
theorem forbids_ofVerdicts {scope : List SymbolName} {assignment : Assignment}
    (verdict : Assignment → Bool) (width : assignment.length = scope.length) :
    (ofVerdicts scope verdict).forbids assignment = verdict assignment := by
  have found := Assignment.getElem?_all_row assignment
  rw [width] at found
  simp [forbids, ofVerdicts, Array.getD_eq_getD_getElem?, found]

end ElectiveCalculus.Equation
