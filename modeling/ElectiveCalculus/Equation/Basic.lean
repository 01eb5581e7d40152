/-
# Equations as tables of what they forbid

An equation between elective expressions says which assignments to its variables cannot
occur. Its normal form is the complete table of these verdicts: the row of an assignment
is its bits read as a binary number, the first variable most significant.

Tables also come from outside and are used as they are. Nothing here asks that a table be
complete or that variables be distinct letters: a row past the end of the table is not
forbidden, and the first variable of a name counts.

Scopes and tables are compared entry by entry, which decides whether they are equal.
-/

import ElectiveCalculus.Assignment.Basic
import ElectiveCalculus.Error

namespace ElectiveCalculus

/-- An equation in normal form: its scope, which is its variables in order, and for each
row of the table whether the assignment of that row is forbidden. -/
structure Equation where
  scope : List SymbolName
  forbidden : Array Bool
  deriving DecidableEq, Repr

namespace Equation

/-- Whether an assignment is forbidden; a missing row forbids nothing. -/
def forbids (equation : Equation) (assignment : Assignment) : Bool :=
  equation.forbidden.getD assignment.row false

/-- Whether an assignment is forbidden, which is asked only with one value for each
variable. -/
def isForbidden (equation : Equation) (values : Assignment) : Except Error Bool :=
  if values.length = equation.scope.length then
    .ok (equation.forbids values)
  else
    .error (.valueCount equation.scope values.length)

/-- The equation forbids nothing, and so asserts nothing. -/
def isTautology (equation : Equation) : Bool := equation.forbidden.all (· == false)

/-- The equation forbids every row, and so cannot be satisfied. -/
def isContradiction (equation : Equation) : Bool := equation.forbidden.all (· == true)

/-- Whether two lists are equally long and have the same entry at every place. -/
def sameEntries {α : Type} [DecidableEq α] (first second : List α) : Bool :=
  first.length == second.length &&
    first.zipIdx.all fun (entry, place) => second[place]? == some entry

/-- Whether two scopes have the same variables in the same order. -/
def sameVariables (scope other : List SymbolName) : Bool := sameEntries scope other

/-- Whether two equations have the same variables and the same table. -/
def equal (first second : Equation) : Bool :=
  sameVariables first.scope second.scope &&
    sameEntries first.forbidden.toList second.forbidden.toList

/-- The equation over a scope with a verdict for every assignment to its variables. -/
def ofVerdicts (scope : List SymbolName) (verdict : Assignment → Bool) : Equation :=
  ⟨scope, ((Assignment.all scope.length).map verdict).toArray⟩

/-- Comparing two lists entry by entry decides whether they are equal. -/
theorem sameEntries_iff {α : Type} [DecidableEq α] {first second : List α} :
    sameEntries first second = true ↔ first = second := by
  simp only [sameEntries, Bool.and_eq_true, beq_iff_eq, List.all_eq_true, Prod.forall,
    List.mk_mem_zipIdx_iff_getElem?]
  apply Iff.intro
  · rintro ⟨hlength, hplaces⟩
    apply List.ext_getElem hlength
    intro place hplace hplace'
    have hentry := hplaces _ _ (List.getElem?_eq_getElem hplace)
    exact (List.getElem_eq_iff hplace').mpr hentry |>.symm
  · rintro rfl
    exact ⟨rfl, fun _ _ hentry => hentry⟩

theorem sameVariables_iff {scope other : List SymbolName} :
    sameVariables scope other = true ↔ scope = other :=
  sameEntries_iff

/-- Comparing equations decides whether they are equal. -/
theorem equal_iff {first second : Equation} : first.equal second = true ↔ first = second := by
  cases first
  cases second
  simp only [equal, Bool.and_eq_true, sameVariables_iff, sameEntries_iff, Array.toList_inj,
    Equation.mk.injEq]

end Equation

end ElectiveCalculus
