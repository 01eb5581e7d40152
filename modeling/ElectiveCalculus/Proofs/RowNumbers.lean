/-
# Row numbers and the bits they spell

A row number is turned into an assignment by reading its bits off a machine word. Up to
thirty-two variables nothing is lost by that: the row of an assignment spells the assignment,
and the row numbers of a complete table spell, in ascending order, every assignment of its
width once.
-/

import ElectiveCalculus.Assignment.Indexing
import ElectiveCalculus.Assignment.Lemmas
import Mathlib

namespace ElectiveCalculus.Assignment

/-- Shifting a word with its sign and masking its last bit reads one of the last thirty-two bits
of the number. The sign is never read, because the shift stays inside the word. -/
theorem wordBit_eq_testBit (index : Int) (place : Nat) :
    wordBit index place = (index % 2 ^ 32).toNat.testBit (place % 32) := by
  have hplace : place % 32 < 32 := Nat.mod_lt _ (by decide)
  have hshifted : ((BitVec.ofInt 32 index).sshiftRight (place % 32)).getLsbD 0 =
      (BitVec.ofInt 32 index).getLsbD (place % 32) := by
    rw [BitVec.getLsbD_sshiftRight, Nat.add_zero, if_pos hplace]
    rfl
  have hword : (BitVec.ofInt 32 index).toNat = (index % 2 ^ 32).toNat := by
    rw [BitVec.toNat_ofInt, Nat.cast_pow, Nat.cast_ofNat]
  rw [wordBit, BitVec.and_one_eq_setWidth_ofBool_getLsbD, hshifted, BitVec.getLsbD, hword]
  cases (index % 2 ^ 32).toNat.testBit (place % 32) <;> rfl

/-- The places go down as the bits are read, from the one before the width to the last. -/
theorem getElem?_ofIndex (index : Int) {width place : Nat} (hplace : place < width) :
    (ofIndex index width)[place]? =
      some ((index % 2 ^ 32).toNat.testBit ((width - 1 - place) % 32)) := by
  have hdown : (List.range width).reverse[place]? = some (width - 1 - place) := by
    rw [List.getElem?_reverse (by simpa using hplace), List.length_range,
      List.getElem?_range (by omega)]
  rw [ofIndex, List.getElem?_map, hdown, Option.map_some, wordBit_eq_testBit]

/-- The bits of a row are the bits of the assignment, the last one least significant. -/
theorem testBit_row (assignment : Assignment) {place : Nat} (hplace : place < assignment.length) :
    assignment.row.testBit (assignment.length - 1 - place) = assignment[place] := by
  induction assignment generalizing place with
  | nil => cases hplace
  | cons bit rest ih =>
      rw [row_cons, Nat.mul_comm, Nat.testBit_two_pow_mul_add _ (row_lt rest), List.length_cons,
        Nat.add_sub_cancel]
      cases place with
      | zero => cases bit <;> simp
      | succ place =>
          have hrest : place < List.length rest := Nat.lt_of_succ_lt_succ hplace
          rw [if_pos (by omega), List.getElem_cons_succ, ← ih hrest]
          congr 1
          omega

/-- A number that fits into a word is what the word holds. -/
theorem toNat_emod_word {number : Nat} (hnumber : number < 2 ^ 32) :
    ((number : Int) % 2 ^ 32).toNat = number := by
  rw [Int.emod_eq_of_lt (by positivity) (by exact_mod_cast hnumber), Int.toNat_natCast]

/-- The row of an assignment spells the assignment, as far as a machine word reaches. -/
theorem ofIndex_row {assignment : Assignment} (hwidth : assignment.length ≤ 32) :
    ofIndex assignment.row assignment.length = assignment := by
  have hword : assignment.row < 2 ^ 32 :=
    assignment.row_lt.trans_le (Nat.pow_le_pow_right (by decide) hwidth)
  apply List.ext_getElem (length_ofIndex _ _)
  intro place hplace hplace'
  have hshift : (assignment.length - 1 - place) % 32 = assignment.length - 1 - place :=
    Nat.mod_eq_of_lt (by omega)
  rw [List.getElem_eq_iff, getElem?_ofIndex _ hplace', toNat_emod_word hword, hshift,
    testBit_row _ hplace']

/-- What a row number spells stands in that row. -/
theorem row_ofIndex {width row : Nat} (hwidth : width ≤ 32) (hrow : row < 2 ^ width) :
    (ofIndex row width).row = row := by
  obtain ⟨assignment, rfl, rfl⟩ := exists_row_eq hrow
  rw [ofIndex_row hwidth]

/-- The row numbers of a complete table spell the assignments in the order of the table. -/
theorem map_ofIndex_range {width : Nat} (hwidth : width ≤ 32) :
    ((List.range (2 ^ width)).map fun (row : Nat) => ofIndex row width) = all width := by
  apply List.ext_getElem (by simp)
  intro row hrow hrow'
  rw [length_all] at hrow'
  obtain ⟨assignment, rfl, rfl⟩ := exists_row_eq hrow'
  rw [List.getElem_map, List.getElem_range, ofIndex_row hwidth]
  exact (List.getElem_eq_iff _).mpr (getElem?_all_row assignment) |>.symm

/-- Every assignment of a width stands in the list once. -/
theorem nodup_all (width : Nat) : (all width).Nodup := by
  induction width with
  | zero => exact List.nodup_singleton _
  | succ width ih =>
      apply List.Nodup.append
      · exact ih.map (List.cons_injective)
      · exact ih.map (List.cons_injective)
      · intro assignment hfalse htrue
        obtain ⟨_, -, rfl⟩ := List.mem_map.mp hfalse
        obtain ⟨_, -, hsame⟩ := List.mem_map.mp htrue
        cases hsame

end ElectiveCalculus.Assignment
