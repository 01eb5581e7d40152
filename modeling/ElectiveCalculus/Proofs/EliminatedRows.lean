/-
# The rows that an elimination reads

Elimination finds the two rows for a row of its result by writing the row as an assignment,
putting a bit back in its place and adding up again. In numbers this splits the row at the place
of the bit: what stands before it counts twice as much as it did, what stands behind it counts
the same, and the bit is worth the place that was opened. Opened at one place, and with either
bit there, the rows of the result become all rows of the given table, each of them once. So
every given row is consulted for one row of the result.
-/

import ElectiveCalculus.Proofs.Elimination
import ElectiveCalculus.Proofs.Enumeration
import Mathlib

namespace ElectiveCalculus

namespace Assignment

/-- The row with a zero bit put before its last `gap` bits. -/
def opened (gap row : Nat) : Nat := row / 2 ^ gap * 2 ^ (gap + 1) + row % 2 ^ gap

/-- The row without the bit before its last `gap` bits. -/
def closed (gap row : Nat) : Nat := row / 2 ^ (gap + 1) * 2 ^ gap + row % 2 ^ gap

/-! ## A bit put in -/

theorem row_append (first second : Assignment) :
    row (first ++ second) = first.row * 2 ^ second.length + second.row := by
  rw [row, List.foldl_append, foldl_row]
  rfl

/-- The assignment is cut where the bit is put in, and both parts are read off the row. -/
theorem row_insertIdx {rest : Assignment} {position : Nat} (hposition : position ≤ rest.length)
    (bit : Bool) :
    row (rest.insertIdx position bit) =
      opened (rest.length - position) rest.row + bit.toNat * 2 ^ (rest.length - position) := by
  obtain ⟨before, behind, rfl, rfl, hinserted⟩ :=
    List.exists_of_modifyTailIdx (List.cons bit) hposition
  have hgap : (before ++ behind).length - before.length = behind.length := by
    rw [List.length_append, Nat.add_sub_cancel_left]
  obtain ⟨hquotient, hremainder⟩ : row (before ++ behind) / 2 ^ behind.length = row before ∧
      row (before ++ behind) % 2 ^ behind.length = row behind := by
    rw [Nat.div_mod_unique (by positivity), row_append, Nat.mul_comm, Nat.add_comm]
    exact ⟨rfl, row_lt behind⟩
  calc row ((before ++ behind).insertIdx before.length bit)
      = row (before ++ bit :: behind) := congrArg row hinserted
    _ = row before * 2 ^ (behind.length + 1) + (bit.toNat * 2 ^ behind.length + row behind) := by
        rw [row_append, row_cons, List.length_cons]
    _ = _ := by
        rw [hgap, opened, hquotient, hremainder]
        omega

/-! ## Opened rows -/

/-- Behind the place that is opened nothing changes, and before it the bit is added as a digit. -/
theorem opened_div_mod (gap row bit : Nat) :
    (opened gap row + bit * 2 ^ gap) / 2 ^ gap = 2 * (row / 2 ^ gap) + bit ∧
      (opened gap row + bit * 2 ^ gap) % 2 ^ gap = row % 2 ^ gap := by
  have hpositive : 0 < 2 ^ gap := by positivity
  refine (Nat.div_mod_unique hpositive).mpr ⟨?_, Nat.mod_lt row hpositive⟩
  rw [opened]
  ring

theorem closed_div_mod (gap row : Nat) :
    closed gap row / 2 ^ gap = row / 2 ^ gap / 2 ∧ closed gap row % 2 ^ gap = row % 2 ^ gap := by
  have hpositive : 0 < 2 ^ gap := by positivity
  refine (Nat.div_mod_unique hpositive).mpr ⟨?_, Nat.mod_lt row hpositive⟩
  rw [closed, pow_succ, ← Nat.div_div_eq_div_mul]
  ring

theorem closed_opened (gap row : Nat) {bit : Nat} (hbit : bit < 2) :
    closed gap (opened gap row + bit * 2 ^ gap) = row ∧
      (opened gap row + bit * 2 ^ gap) / 2 ^ gap % 2 = bit := by
  obtain ⟨hquotient, hremainder⟩ := opened_div_mod gap row bit
  have hhalf : (2 * (row / 2 ^ gap) + bit) / 2 = row / 2 ^ gap := by omega
  apply And.intro
  · rw [closed, hremainder, pow_succ, ← Nat.div_div_eq_div_mul, hquotient, hhalf,
      Nat.div_add_mod']
  · rw [hquotient]
    omega

theorem opened_closed (gap row : Nat) :
    opened gap (closed gap row) + row / 2 ^ gap % 2 * 2 ^ gap = row := by
  obtain ⟨hquotient, hremainder⟩ := closed_div_mod gap row
  have hdigits : row / 2 ^ gap = 2 * (row / 2 ^ gap / 2) + row / 2 ^ gap % 2 := by omega
  calc opened gap (closed gap row) + row / 2 ^ gap % 2 * 2 ^ gap
      = (2 * (row / 2 ^ gap / 2) + row / 2 ^ gap % 2) * 2 ^ gap + row % 2 ^ gap := by
        rw [opened, hquotient, hremainder]
        ring
    _ = row := by rw [← hdigits, Nat.div_add_mod']

/-- Only what stands before its last bits decides how large a row is. -/
theorem lt_two_pow_iff {gap width row : Nat} (hgap : gap ≤ width) :
    row < 2 ^ width ↔ row / 2 ^ gap < 2 ^ (width - gap) := by
  rw [Nat.div_lt_iff_lt_mul (by positivity), ← pow_add, Nat.sub_add_cancel hgap]

/-- Opened at one place, and with either bit there, the rows of a table become the rows of a
table over one variable more. -/
theorem bijOn_opened {gap width : Nat} (hgap : gap ≤ width) :
    Set.BijOn (fun source : Nat × Nat => opened gap source.1 + source.2 * 2 ^ gap)
      (Set.Iio (2 ^ width) ×ˢ Set.Iio 2) (Set.Iio (2 ^ (width + 1))) := by
  have hpower : 2 ^ (width + 1 - gap) = 2 * 2 ^ (width - gap) := by
    rw [Nat.sub_add_comm hgap, pow_succ']
  have hinverse : Set.InvOn (fun row : Nat => (closed gap row, row / 2 ^ gap % 2))
      (fun source : Nat × Nat => opened gap source.1 + source.2 * 2 ^ gap)
      (Set.Iio (2 ^ width) ×ˢ Set.Iio 2) (Set.Iio (2 ^ (width + 1))) := by
    apply And.intro
    · rintro ⟨row, bit⟩ ⟨-, hbit⟩
      obtain ⟨hrow, hbit⟩ := closed_opened gap row hbit
      exact Prod.ext hrow hbit
    · exact fun row _ => opened_closed gap row
  refine hinverse.bijOn ?opens ?closes
  case opens =>
    rintro ⟨row, bit⟩ ⟨hrow, hbit⟩
    have hbefore : row / 2 ^ gap < 2 ^ (width - gap) := (lt_two_pow_iff hgap).mp hrow
    simp only [Set.mem_Iio] at hbit ⊢
    rw [lt_two_pow_iff (hgap.trans (Nat.le_succ width)), (opened_div_mod gap row bit).1, hpower]
    omega
  case closes =>
    intro row hrow
    have hbefore := (lt_two_pow_iff (hgap.trans (Nat.le_succ width))).mp hrow
    refine ⟨(lt_two_pow_iff hgap).mpr ?_, Nat.mod_lt _ two_pos⟩
    rw [(closed_div_mod gap row).1]
    rw [hpower] at hbefore
    omega

end Assignment

namespace Equation

variable {equation : Equation} {symbol : SymbolName} {position gap : Nat}

theorem forbids_eq_true_iff {assignment : Assignment} :
    equation.forbids assignment = true ↔ equation.forbidden[assignment.row]? = some true := by
  rw [forbids, Array.getD_eq_getD_getElem?]
  cases equation.forbidden[assignment.row]? <;> simp

/-- A row of a projection is forbidden when both rows are that are opened from it. -/
theorem getElem?_project_eq_true_iff (hposition : position < equation.scope.length)
    {rest : Assignment} (hwidth : rest.length = equation.scope.length - 1) :
    (equation.project position).forbidden[rest.row]? = some true ↔
      equation.forbidden[Assignment.opened (rest.length - position) rest.row]? = some true ∧
        equation.forbidden[Assignment.opened (rest.length - position) rest.row +
          2 ^ (rest.length - position)]? = some true := by
  have hinside : position ≤ rest.length := by omega
  have hrest : rest.length = (equation.project position).scope.length :=
    hwidth.trans (List.length_eraseIdx_of_lt hposition).symm
  have hbit (bit : Bool) : equation.forbids (rest.insertIdx position bit) = true ↔
      equation.forbidden[Assignment.opened (rest.length - position) rest.row +
        bit.toNat * 2 ^ (rest.length - position)]? = some true := by
    rw [forbids_eq_true_iff, Assignment.row_insertIdx hinside]
  rw [← forbids_eq_true_iff, forbids_project hrest, Bool.and_eq_true, hbit, hbit]
  simp only [Bool.toNat_false, Bool.toNat_true, zero_mul, one_mul, add_zero]

/-- Eliminating a symbol reads, for each row of the result, the row that is opened at the first
place of the symbol and the one with the symbol's bit set there. These are the numbers that the
assignment spelled by the row adds up to when either bit is put back in it, and every row of
the given table is read for one row of the result. The names may be any, also repeated, and the
table may have any length. -/
theorem rows_read_by_elimination (hposition : equation.scope.idxOf? symbol = some position)
    (hgap : gap = equation.scope.length - 1 - position) (hwidth : equation.scope.length ≤ 32)
    (settings : Log.Settings) :
    ∃ result : Equation, ((equation.eliminate symbol).run settings).outcome = .ok result ∧
      result.forbidden.size = 2 ^ (equation.scope.length - 1) ∧
      (∀ row < 2 ^ (equation.scope.length - 1),
        (result.forbidden[row]? = some true ↔
          equation.forbidden[Assignment.opened gap row]? = some true ∧
            equation.forbidden[Assignment.opened gap row + 2 ^ gap]? = some true) ∧
        ∀ bit : Bool, Assignment.toIndex
            ((Assignment.ofIndex row (equation.scope.length - 1)).insertIdx position bit) =
          some (Assignment.opened gap row + bit.toNat * 2 ^ gap)) ∧
      Set.BijOn (fun source : Nat × Nat => Assignment.opened gap source.1 + source.2 * 2 ^ gap)
        (Set.Iio (2 ^ (equation.scope.length - 1)) ×ˢ Set.Iio 2)
        (Set.Iio (2 ^ equation.scope.length)) := by
  obtain ⟨hplace, hfirst⟩ : position < equation.scope.length ∧
      equation.scope.idxOf symbol = position :=
    List.findIdx?_eq_some_iff_findIdx_eq.mp hposition
  subst hfirst
  have hsymbol : symbol ∈ equation.scope := List.idxOf_lt_length_iff.mp hplace
  have hscope : (equation.project (equation.scope.idxOf symbol)).scope.length =
      equation.scope.length - 1 := List.length_eraseIdx_of_lt hplace
  refine ⟨_, outcome_eliminate_eq_ok_iff.mpr ⟨hsymbol, rfl⟩, ?size, ?rows, ?sources⟩
  case size => rw [isComplete_project, hscope]
  case rows =>
    intro row hrow
    obtain ⟨rest, hrest, rfl⟩ := Assignment.exists_row_eq hrow
    obtain rfl : gap = rest.length - equation.scope.idxOf symbol := hrest ▸ hgap
    refine ⟨getElem?_project_eq_true_iff hplace hrest, fun bit => ?_⟩
    have hinside : equation.scope.idxOf symbol ≤ rest.length := by omega
    have hlength : (rest.insertIdx (equation.scope.idxOf symbol) bit).length ≤
        Binary64.precision := by
      rw [List.length_insertIdx_of_le_length hinside, hrest, Nat.sub_add_cancel (by omega)]
      exact hwidth.trans (by decide)
    rw [← hrest, Assignment.ofIndex_row (by omega)]
    rw [Assignment.toIndex_eq_row hlength, Assignment.row_insertIdx hinside]
  case sources =>
    have hbijection := Assignment.bijOn_opened (show gap ≤ equation.scope.length - 1 by omega)
    rwa [Nat.sub_add_cancel (by omega)] at hbijection

/-- A name stands on both sides of the symbol and the last two rows are missing. Row zero comes
from rows zero and two, and row two from rows four and six, of which the second is missing. -/
theorem rows_read_by_elimination_missing :
    (["x", "y", "x"] : List SymbolName).idxOf? (Text.ofString "y") = some 1 ∧
      ∃ result : Equation,
        ((eliminate ⟨["x", "y", "x"], #[true, false, true, true, true, true]⟩ "y").run
          .off).outcome = .ok result ∧
        result.forbidden.size = 4 ∧ result.forbidden[0]? = some true ∧
          result.forbidden[2]? ≠ some true := by
  have hposition : (["x", "y", "x"] : List SymbolName).idxOf? (Text.ofString "y") = some 1 := by
    decide
  obtain ⟨result, heliminated, hsize, hrows, -⟩ :=
    @rows_read_by_elimination ⟨["x", "y", "x"], #[true, false, true, true, true, true]⟩ "y" 1 1
      hposition rfl (by decide) .off
  refine ⟨hposition, result, heliminated, hsize, ?_, ?_⟩
  · exact (hrows 0 (by decide)).1.mpr (by decide)
  · exact fun hforbidden => absurd ((hrows 2 (by decide)).1.mp hforbidden) (by decide)

end Equation

end ElectiveCalculus
