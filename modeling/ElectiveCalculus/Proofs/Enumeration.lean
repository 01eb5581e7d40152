/-
# Row numbers, assignments and the order between them

The conversions for callers who hold plain numbers are exact as far as their number formats
reach. A row number is read as a machine word, so of any integer, a negative one too, the last
thirty-two bits count, and an assignment of at most thirty-two bits spells the integer modulo
two to the power of its width. Adding up in double precision loses nothing up to fifty-three
bits. In between the two are inverse to each other, and counting up from zero gives every
assignment of a width once, in lexicographic order.
-/

import ElectiveCalculus.Proofs.RowNumbers
import Mathlib

namespace ElectiveCalculus

/-- A whole number of at most fifty-three bits is a double. -/
theorem Binary64.nearest_eq_self {number : Nat} (hnumber : number < 2 ^ precision) :
    nearest number = some number := by
  have hspacing : 1 <<< (number.log2 + 1 - precision) = 1 := by
    have hbits : number.log2 + 1 - precision = 0 := by
      by_cases hzero : number = 0
      · rw [hzero]
        rfl
      · have hlog : number.log2 < precision := (Nat.log2_lt hzero).mpr hnumber
        omega
    rw [hbits, Nat.shiftLeft_zero]
  have hfinite : number < 1 <<< 1024 := hnumber.trans (by decide +kernel)
  have hkept : (decide (2 * 0 > 1) || (2 * 0 == 1 && number % 2 == 1)) = false := rfl
  simp only [nearest, hspacing, Nat.div_one, Nat.mod_one, hkept, Bool.false_eq_true, if_false,
    Nat.mul_one]
  exact if_pos hfinite

/-- A number of more than fifty-three bits is not rounded to one of at most that many. -/
theorem Binary64.le_of_nearest_eq_some {number double : Nat} (hnumber : 2 ^ precision ≤ number)
    (hdouble : nearest number = some double) : 2 ^ precision ≤ double := by
  have hzero : number ≠ 0 := (Nat.two_pow_pos precision).trans_le hnumber |>.ne'
  have hlog : precision ≤ number.log2 := (Nat.le_log2 hzero).mpr hnumber
  have hleading : 2 ^ number.log2 =
      2 ^ (precision - 1) * 2 ^ (number.log2 + 1 - precision) := by
    rw [← Nat.pow_add]
    congr 1
    unfold precision at *
    omega
  have hbelow : 2 ^ (precision - 1) ≤ number / 2 ^ (number.log2 + 1 - precision) := by
    rw [Nat.le_div_iff_mul_le (Nat.two_pow_pos _), ← hleading]
    exact Nat.log2_self_le hzero
  simp only [nearest, Nat.one_shiftLeft, Option.ite_none_right_eq_some, Option.some.injEq]
    at hdouble
  obtain ⟨-, rfl⟩ := hdouble
  calc 2 ^ precision
      ≤ 2 ^ number.log2 := Nat.pow_le_pow_right two_pos hlog
    _ = 2 ^ (precision - 1) * 2 ^ (number.log2 + 1 - precision) := hleading
    _ ≤ number / 2 ^ (number.log2 + 1 - precision) * 2 ^ (number.log2 + 1 - precision) :=
        Nat.mul_le_mul_right _ hbelow
    _ ≤ _ := Nat.mul_le_mul_right _ (by split <;> omega)

namespace Assignment

/-! ## Assignments as numbers -/

theorem row_append_singleton (rest : Assignment) (bit : Bool) :
    row (rest ++ [bit]) = 2 * row rest + bit.toNat := by
  rw [row, List.foldl_append, ← row]
  rfl

/-- The row of an assignment is the number that its bits are the binary digits of. -/
theorem row_eq_ofDigits (assignment : Assignment) :
    assignment.row = Nat.ofDigits 2 (assignment.reverse.map Bool.toNat) := by
  induction assignment with
  | nil => rfl
  | cons bit rest ih =>
      rw [row_cons, ih, List.reverse_cons, List.map_append, Nat.ofDigits_append,
        List.length_map, List.length_reverse, List.map_singleton, Nat.ofDigits_singleton]
      ring

theorem toIndex_append_singleton (rest : Assignment) (bit : Bool) :
    toIndex (rest ++ [bit]) =
      (toIndex rest).bind fun total => Binary64.nearest (2 * total + bit.toNat) := by
  rw [toIndex, List.foldlM_append, ← toIndex]
  cases toIndex rest with
  | none => rfl
  | some total => exact bind_pure (Binary64.nearest (2 * total + bit.toNat))

/-- Adding up in double precision is exact as long as the row has fifty-three bits. The induction
is on the last bit, behind which the sum is the row, so that every sum on the way is a double. -/
theorem toIndex_eq_row_of_lt {assignment : Assignment}
    (hrow : assignment.row < 2 ^ Binary64.precision) :
    toIndex assignment = some assignment.row := by
  induction assignment using List.reverseRecOn with
  | nil => rfl
  | append_singleton rest bit ih =>
      rw [row_append_singleton] at hrow ⊢
      rw [toIndex_append_singleton, ih (by omega), Option.bind_some,
        Binary64.nearest_eq_self hrow]

theorem toIndex_eq_row {assignment : Assignment}
    (hwidth : assignment.length ≤ Binary64.precision) :
    toIndex assignment = some assignment.row :=
  toIndex_eq_row_of_lt
    (assignment.row_lt.trans_le (Nat.pow_le_pow_right (by decide) hwidth))

/-- Past fifty-three bits the sum need not be the row, but it stays as far up. -/
theorem le_of_toIndex_eq_some {assignment : Assignment} {index : Nat}
    (hrow : 2 ^ Binary64.precision ≤ assignment.row) (hindex : toIndex assignment = some index) :
    2 ^ Binary64.precision ≤ index := by
  induction assignment using List.reverseRecOn generalizing index with
  | nil => exact absurd hrow (by decide)
  | append_singleton rest bit ih =>
      rw [toIndex_append_singleton] at hindex
      obtain ⟨total, htotal, hnearest⟩ := Option.bind_eq_some_iff.mp hindex
      rw [row_append_singleton] at hrow
      refine Binary64.le_of_nearest_eq_some ?_ hnearest
      -- the bits before the last one may still have been added up exactly
      by_cases hrest : row rest < 2 ^ Binary64.precision
      · obtain rfl : row rest = total :=
          Option.some.inj ((toIndex_eq_row_of_lt hrest).symm.trans htotal)
        exact hrow
      · have hlarge := ih (not_lt.mp hrest) htotal
        omega

/-! ## Numbers as assignments -/

/-- Reducing an integer modulo a power of two and then modulo a smaller one is reducing it
modulo the smaller one. -/
theorem toNat_emod_two_pow {width wide : Nat} (hwidth : width ≤ wide) (index : Int) :
    (index % 2 ^ wide).toNat % 2 ^ width = (index % 2 ^ width).toNat := by
  have hpositive : (0 : Int) ≤ index % 2 ^ wide := Int.emod_nonneg _ (by positivity)
  have hreduced : index % 2 ^ wide % 2 ^ width = index % 2 ^ width :=
    Int.emod_emod_of_dvd _ (pow_dvd_pow 2 hwidth)
  rw [← hreduced, Int.toNat_emod hpositive (by positivity)]
  congr 1

/-- Only the last bits of an integer are read, as many as the assignment has. -/
theorem ofIndex_emod {width : Nat} (hwidth : width ≤ 32) (index : Int) :
    ofIndex ((index % 2 ^ width).toNat : Int) width = ofIndex index width := by
  apply List.ext_getElem?
  intro place
  by_cases hplace : place < width
  · have hshift : (width - 1 - place) % 32 < width := by omega
    have hinside : (index % 2 ^ width).toNat < 2 ^ 32 := by
      rw [← toNat_emod_two_pow hwidth]
      exact (Nat.mod_lt _ (by positivity)).trans_le (Nat.pow_le_pow_right (by decide) hwidth)
    rw [getElem?_ofIndex _ hplace, getElem?_ofIndex _ hplace, toNat_emod_word hinside,
      ← toNat_emod_two_pow hwidth, Nat.testBit_mod_two_pow, decide_eq_true hshift, Bool.true_and]
  · have hlength : width ≤ place := not_lt.mp hplace
    rw [List.getElem?_eq_none (by simpa using hlength),
      List.getElem?_eq_none (by simpa using hlength)]

/-- An integer is spelled modulo two to the power of the width. -/
theorem row_ofIndex_emod {width : Nat} (hwidth : width ≤ 32) (index : Int) :
    ((ofIndex index width).row : Int) = index % 2 ^ width := by
  have hpositive : (0 : Int) ≤ index % 2 ^ width := Int.emod_nonneg _ (by positivity)
  have hinside : (index % 2 ^ width).toNat < 2 ^ width := by
    rw [← toNat_emod_two_pow le_rfl]
    exact Nat.mod_lt _ (by positivity)
  rw [← ofIndex_emod hwidth, row_ofIndex hwidth hinside, Int.toNat_of_nonneg hpositive]

/-! ## Counting up -/

/-- Counting up from zero goes through the rows of a complete table in order, and ends there. -/
theorem enumerate_eq_take {width : Nat} (hwidth : width ≤ 32) (count : Nat) :
    enumerate width count = (all width).take count := by
  have hcount : min count (1 <<< min width count) = min count (2 ^ width) := by
    rw [Nat.one_shiftLeft]
    rcases le_total width count with hbefore | hbehind
    · rw [min_eq_left hbefore]
    · have hlong : count ≤ 2 ^ width :=
        Nat.lt_two_pow_self.le.trans (Nat.pow_le_pow_right (by decide) hbehind)
      rw [min_eq_right hbehind, min_eq_left Nat.lt_two_pow_self.le, min_eq_left hlong]
  rw [← map_ofIndex_range hwidth, ← List.map_take, List.take_range, enumerate,
    if_pos (Int.natCast_nonneg width), Int.toNat_natCast, hcount]

theorem enumerate_eq_all {width count : Nat} (hwidth : width ≤ 32)
    (hcount : 2 ^ width ≤ count) : enumerate width count = all width := by
  rw [enumerate_eq_take hwidth, List.take_of_length_le (by simpa using hcount)]

/-- The rows of a complete table are in lexicographic order: the assignments in the first half
begin with another bit than those in the second half. -/
theorem pairwise_lt_all (width : Nat) : (all width).Pairwise (· < ·) := by
  induction width with
  | zero => exact List.pairwise_singleton _ _
  | succ width ih =>
      have hhalf (bit : Bool) : ((all width).map (bit :: ·)).Pairwise (· < ·) :=
        List.pairwise_map.mpr (ih.imp fun hless =>
          List.cons_lt_cons_iff.mpr (Or.inr ⟨rfl, hless⟩))
      refine List.pairwise_append.mpr ⟨hhalf false, hhalf true, ?_⟩
      intro first hfirst second hsecond
      obtain ⟨_, -, rfl⟩ := List.mem_map.mp hfirst
      obtain ⟨_, -, rfl⟩ := List.mem_map.mp hsecond
      exact List.cons_lt_cons_iff.mpr (Or.inl (by decide))

theorem count_all (width : Nat) (assignment : Assignment) :
    (all width).count assignment = if assignment.length = width then 1 else 0 := by
  simp only [(nodup_all width).count, mem_all]

/-- An integer is read bit by bit off its last thirty-two bits, over and over where the width is
larger. Up to that width the reading and the adding up undo each other, an integer being taken
modulo two to the power of the width, and counting up gives every assignment once, in
lexicographic order and each in its row. Adding up is exact up to fifty-three bits. -/
theorem numbers_and_assignments_correspond :
    (∀ (index : Int) (width : Nat), (ofIndex index width).length = width ∧
      ∀ place < width, (ofIndex index width)[place]? =
        some ((index % 2 ^ 32).toNat.testBit ((width - 1 - place) % 32))) ∧
    (∀ width ≤ 32,
      (∀ index : Int, ∃ row : Nat,
        toIndex (ofIndex index width) = some row ∧ (row : Int) = index % 2 ^ width) ∧
      (∀ assignment : Assignment, assignment.length = width → ∃ row : Nat,
        toIndex assignment = some row ∧ ofIndex row width = assignment ∧
          ∀ count ≥ 2 ^ width, (enumerate width count)[row]? = some assignment) ∧
      ∀ count ≥ 2 ^ width, (enumerate width count).Pairwise (· < ·) ∧
        ∀ assignment : Assignment, (enumerate width count).count assignment =
          if assignment.length = width then 1 else 0) ∧
    ∀ assignment : Assignment, assignment.length ≤ 53 →
      toIndex assignment = some (Nat.ofDigits 2 (assignment.reverse.map Bool.toNat)) := by
  refine ⟨fun index width => ⟨length_ofIndex index width, ?bits⟩,
    fun width hwidth => ⟨?integers, ?assignments, ?counting⟩, ?exact⟩
  case bits => exact fun place hplace => getElem?_ofIndex index hplace
  case integers =>
    intro index
    have hlength : (ofIndex index width).length ≤ Binary64.precision := by
      rw [length_ofIndex]
      exact hwidth.trans (by decide)
    exact ⟨_, toIndex_eq_row hlength, row_ofIndex_emod hwidth index⟩
  case assignments =>
    rintro assignment rfl
    refine ⟨_, toIndex_eq_row (hwidth.trans (by decide)), ofIndex_row hwidth, ?_⟩
    intro count hcount
    rw [enumerate_eq_all hwidth hcount]
    exact getElem?_all_row assignment
  case counting =>
    intro count hcount
    rw [enumerate_eq_all hwidth hcount]
    exact ⟨pairwise_lt_all width, count_all width⟩
  case exact =>
    intro assignment hlength
    rw [toIndex_eq_row hlength, row_eq_ofDigits]

/-- Minus two over thirty-two bits begins with the sign bit and is two less than a full word; over
thirty-three bits it begins with the last bit of the word. Of two bits there are four
assignments, and the largest number of fifty-three bits is a double. -/
theorem numbers_and_assignments_correspond_minus_two :
    (ofIndex (-2) 32)[0]? = some true ∧ (ofIndex (-2) 33)[0]? = some false ∧
      (∃ row : Nat, toIndex (ofIndex (-2) 32) = some row ∧ (row : Int) = 2 ^ 32 - 2) ∧
      (∃ row : Nat, toIndex [true, false] = some row ∧ ofIndex row 2 = [true, false] ∧
        (enumerate 2 4)[row]? = some [true, false]) ∧
      (enumerate 2 4).Pairwise (· < ·) ∧ (enumerate 2 4).count [true, false] = 1 ∧
      toIndex (List.replicate 53 true) = some (2 ^ 53 - 1) := by
  obtain ⟨hbits, hwithin, hexact⟩ := numbers_and_assignments_correspond
  obtain ⟨hintegers, -, -⟩ := hwithin 32 le_rfl
  obtain ⟨-, hassignments, hcounting⟩ := hwithin 2 (by decide)
  obtain ⟨row, hrow, hword, hplace⟩ := hassignments [true, false] rfl
  exact ⟨(hbits (-2) 32).2 0 (by decide), (hbits (-2) 33).2 0 (by decide), hintegers (-2),
    ⟨row, hrow, hword, hplace 4 (by decide)⟩, (hcounting 4 (by decide)).1,
    (hcounting 4 (by decide)).2 [true, false], hexact (List.replicate 53 true) (by decide)⟩

end Assignment

end ElectiveCalculus
