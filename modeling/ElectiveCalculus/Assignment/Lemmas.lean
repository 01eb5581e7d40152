/-
# Rows and the list of all assignments

An assignment of some width has a row below two to the power of the width, and stands at
that row in the list of all assignments of its width. The list has nothing else in it.
-/

import ElectiveCalculus.Assignment.Basic
import Mathlib

namespace ElectiveCalculus.Assignment

/-- Horner's scheme may start from any total, which is then shifted past all the bits. -/
theorem foldl_row (assignment : Assignment) (total : Nat) :
    assignment.foldl (fun total bit => 2 * total + bit.toNat) total =
      total * 2 ^ assignment.length + assignment.row := by
  induction assignment generalizing total with
  | nil => simp [row]
  | cons bit rest ih =>
    rw [row, List.foldl_cons, List.foldl_cons, ih, ih (2 * 0 + bit.toNat), List.length_cons,
      Nat.pow_succ, Nat.add_mul, Nat.add_mul]
    rw [show 2 * total * 2 ^ rest.length = total * (2 ^ rest.length * 2) by
      rw [Nat.mul_comm 2 total, Nat.mul_assoc, Nat.mul_comm 2]]
    omega

@[simp] theorem row_nil : row [] = 0 := rfl

/-- The first bit weighs as much as there are assignments of the other bits. -/
@[simp] theorem row_cons (bit : Bool) (rest : Assignment) :
    row (bit :: rest) = bit.toNat * 2 ^ rest.length + rest.row := by
  rw [row, List.foldl_cons, foldl_row]
  simp

/-- The row of an assignment lies in the complete table of its width. -/
theorem row_lt (assignment : Assignment) : assignment.row < 2 ^ assignment.length := by
  induction assignment with
  | nil => simp
  | cons bit rest ih =>
    rw [row_cons, List.length_cons, Nat.pow_succ]
    cases bit <;> simp <;> omega

/-- Every row of a complete table belongs to an assignment: the half in which the row lies
is the first bit. -/
theorem exists_row_eq {width row : Nat} (hrow : row < 2 ^ width) :
    ∃ assignment : Assignment, assignment.length = width ∧ assignment.row = row := by
  induction width generalizing row with
  | zero => exact ⟨[], rfl, (Nat.lt_one_iff.mp hrow).symm⟩
  | succ width ih =>
    by_cases hfirst : row < 2 ^ width
    · obtain ⟨rest, hwidth, hrest⟩ := ih hfirst
      exact ⟨false :: rest, by rw [List.length_cons, hwidth], by simp [hrest]⟩
    · have hsecond : row - 2 ^ width < 2 ^ width := by
        rw [Nat.pow_succ] at hrow
        omega
      obtain ⟨rest, hwidth, hrest⟩ := ih hsecond
      refine ⟨true :: rest, by rw [List.length_cons, hwidth], ?_⟩
      rw [row_cons, hrest, hwidth, Bool.toNat_true]
      omega

/-- There are two to the power of the width many assignments. -/
@[simp] theorem length_all (width : Nat) : (all width).length = 2 ^ width := by
  induction width with
  | zero => rfl
  | succ width ih => simp [all, ih, Nat.pow_succ]; omega

/-- The list of all assignments of a width has exactly the bit lists of that length. -/
theorem mem_all {width : Nat} {assignment : Assignment} :
    assignment ∈ all width ↔ assignment.length = width := by
  induction width generalizing assignment with
  | zero => simp [all]
  | succ width ih =>
    cases assignment with
    | nil => simp [all]
    | cons bit rest => cases bit <;> simp [all, ih]

/-- An assignment stands in the list of all of its width at its own row. -/
theorem getElem?_all_row (assignment : Assignment) :
    (all assignment.length)[assignment.row]? = some assignment := by
  induction assignment with
  | nil => rfl
  | cons bit rest ih =>
    have inside := row_lt rest
    rw [row_cons, List.length_cons, all]
    cases bit with
    | false =>
      rw [List.getElem?_append_left (by simpa using inside)]
      simp [ih]
    | true =>
      rw [List.getElem?_append_right (by simp)]
      simp [ih]

end ElectiveCalculus.Assignment
