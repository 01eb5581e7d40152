/-
# Tables by number

The calculus lists the assignments of a width by recursion and finds the row of an assignment
exactly. Numbers make and read the same tables: the assignments are counted up as machine
words, and the bits of an assignment are added up in double precision to the number of its
row. Words reach as far as thirty-two variables, which is more than there are letters, and a sum
finds the row of an assignment of any width in a table whose rows have numbers of at most
fifty-three bits.
-/

import ElectiveCalculus.Proofs.Enumeration
import ElectiveCalculus.Proofs.Reachability
import Mathlib

namespace ElectiveCalculus.Equation

variable {equation : Equation} {lhs rhs : Expr} {scope : List SymbolName}
variable {settings : Log.Settings}

/-! ## Reading a table -/

/-- Whether the row is forbidden that the bits of an assignment add up to. There is no such row
when the sum is infinite. -/
def forbidsByNumber (equation : Equation) (assignment : Assignment) : Bool :=
  assignment.toIndex.any fun index => equation.forbidden.getD index false

/-- A sum past fifty-three bits may be another number than the row, but then a table of so few
rows has neither of the two. -/
theorem forbidsByNumber_eq_forbids {assignment : Assignment}
    (hexact : assignment.length ≤ Binary64.precision ∨
      equation.forbidden.size ≤ 2 ^ Binary64.precision) :
    equation.forbidsByNumber assignment = equation.forbids assignment := by
  by_cases hrow : assignment.row < 2 ^ Binary64.precision
  · rw [forbidsByNumber, Assignment.toIndex_eq_row_of_lt hrow]
    rfl
  · have hsize : equation.forbidden.size ≤ 2 ^ Binary64.precision :=
      hexact.resolve_left fun hwidth => hrow
        (assignment.row_lt.trans_le (Nat.pow_le_pow_right (by decide) hwidth))
    have hmissing {index : Nat} (hindex : 2 ^ Binary64.precision ≤ index) :
        equation.forbidden.getD index false = false := by
      rw [Array.getD_eq_getD_getElem?, Array.getElem?_eq_none (hsize.trans hindex)]
      rfl
    rw [forbids, hmissing (not_lt.mp hrow), forbidsByNumber]
    cases hsum : assignment.toIndex with
    | none => rfl
    | some index => exact hmissing (Assignment.le_of_toIndex_eq_some (not_lt.mp hrow) hsum)

/-! ## Making a table -/

/-- The assignments of a width, counted up as machine words. -/
def counted (width : Nat) : List Assignment := Assignment.enumerate width (2 ^ width)

theorem counted_eq_all {width : Nat} (hwidth : width ≤ 32) : counted width = Assignment.all width :=
  Assignment.enumerate_eq_all hwidth le_rfl

/-- The table of an equation between two expressions, one row for each assignment counted. -/
def tabulateByNumber (lhs rhs : Expr) (scope : List SymbolName) :
    Except UnboundSymbol Equation := do
  let forbidden ← (counted scope.length).mapM (sidesDiffer lhs rhs scope)
  return ⟨scope, forbidden.toArray⟩

/-- The equation without the variable at a position, one row for each assignment counted to the
other variables, and either row of the given table found by its number. -/
def projectByNumber (equation : Equation) (position : Nat) : Equation where
  scope := equation.scope.eraseIdx position
  forbidden :=
    ((counted (equation.scope.eraseIdx position).length).map fun rest =>
      equation.forbidsByNumber (rest.insertIdx position false) &&
        equation.forbidsByNumber (rest.insertIdx position true)).toArray

theorem ofVerdicts_eq_map_counted (hwidth : scope.length ≤ 32) (verdict : Assignment → Bool) :
    ofVerdicts scope verdict = ⟨scope, ((counted scope.length).map verdict).toArray⟩ := by
  rw [ofVerdicts, counted_eq_all hwidth]

theorem tabulateByNumber_eq_tabulate (hwidth : scope.length ≤ 32) :
    tabulateByNumber lhs rhs scope = tabulate lhs rhs scope := by
  rw [tabulateByNumber, counted_eq_all hwidth, tabulate]

/-- The rows that are read have one bit more than those that are made, and are found all the
same. -/
theorem projectByNumber_eq_project {position : Nat}
    (hwidth : (equation.scope.eraseIdx position).length ≤ 32) :
    equation.projectByNumber position = equation.project position := by
  have hread : ∀ rest ∈ Assignment.all (equation.scope.eraseIdx position).length, ∀ bit : Bool,
      equation.forbidsByNumber (rest.insertIdx position bit) =
        equation.forbids (rest.insertIdx position bit) := by
    intro rest hrest bit
    apply forbidsByNumber_eq_forbids
    left
    calc (rest.insertIdx position bit).length
        ≤ rest.length + 1 := List.length_insertIdx_le_succ
      _ ≤ 32 + 1 := by rw [Assignment.mem_all.mp hrest]; exact Nat.succ_le_succ hwidth
      _ ≤ Binary64.precision := by decide
  rw [projectByNumber, counted_eq_all hwidth, project, ofVerdicts]
  congr 2
  exact List.map_congr_left fun rest hrest => by rw [hread rest hrest, hread rest hrest]

/-! ## Whole operations -/

/-- Normalizing counts the assignments, whatever the variables are: when they are refused nothing
is counted, and admitted ones are no more than there are letters. -/
theorem outcome_normalize_by_number {limit : Int} :
    ((normalize limit lhs rhs scope).run settings).outcome =
      (checkVariables limit scope).bind fun _ =>
        (tabulateByNumber lhs rhs scope).mapError Error.unboundSymbol := by
  rw [outcome_normalize]
  cases hcheck : checkVariables limit scope with
  | error => rfl
  | ok =>
    have hadmitted := checkVariables_eq_ok_iff.mp hcheck
    have hletters := length_le_of_letters hadmitted.letters hadmitted.distinct
    rw [tabulateByNumber_eq_tabulate (hletters.trans (by decide))]

/-- An equation over distinct letters answers and loses a variable by number. -/
theorem WellFormed.answers_by_number (hformed : equation.WellFormed) :
    (∀ values : Assignment, values.length = equation.scope.length →
      equation.isForbidden values = .ok (equation.forbidsByNumber values)) ∧
    ∀ symbol ∈ equation.scope, ((equation.eliminate symbol).run settings).outcome =
      .ok (equation.projectByNumber (equation.scope.idxOf symbol)) := by
  have hletters := length_le_of_letters hformed.letters hformed.distinct
  refine ⟨?_, ?_⟩
  · intro values hwidth
    have hexact : values.length ≤ Binary64.precision := by
      rw [hwidth]
      exact hletters.trans (by decide)
    rw [isForbidden, if_pos hwidth, forbidsByNumber_eq_forbids (Or.inl hexact)]
  · intro symbol hsymbol
    have hwidth : (equation.scope.eraseIdx (equation.scope.idxOf symbol)).length ≤ 32 :=
      (List.length_eraseIdx_le _ _).trans (hletters.trans (by decide))
    rw [projectByNumber_eq_project hwidth]
    exact outcome_eliminate_eq_ok_iff.mpr ⟨hsymbol, rfl⟩

end ElectiveCalculus.Equation
