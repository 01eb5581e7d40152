/-
# Tables told apart by what they exclude

Every row of a complete table over distinct variables answers for some valuation. Such a
table is therefore known once it is known which valuations it excludes: two of them over
the same variables are equal when they exclude the same valuations, and one is a tautology
or a contradiction when it excludes none or all.

Results of different operations are compared in this way, whatever the rows were that
each of them reads.
-/

import ElectiveCalculus.Proofs.Valuation
import Mathlib

namespace ElectiveCalculus.Equation

variable {equation : Equation}

theorem exists_valuation_row (hcomplete : equation.IsComplete) (hdistinct : equation.scope.Nodup)
    {row : Nat} (hrow : row < equation.forbidden.size) :
    ∃ valuation : Valuation, Assignment.row (equation.scope.map valuation) = row := by
  rw [hcomplete] at hrow
  obtain ⟨assignment, hwidth, hassignment⟩ := Assignment.exists_row_eq hrow
  obtain ⟨valuation, rfl⟩ := exists_valuation hdistinct hwidth
  exact ⟨valuation, hassignment⟩

/-- The row that a valuation asks for holds the verdict on it. -/
theorem IsComplete.getElem?_row_map (hcomplete : equation.IsComplete) (valuation : Valuation) :
    equation.forbidden[Assignment.row (equation.scope.map valuation)]? =
      some (equation.excludes valuation) :=
  hcomplete.getElem?_row (List.length_map _)

/-- Two complete tables over the same variables are equal when they forbid the same
assignments, also where a variable is repeated. -/
theorem eq_of_forbids {first second : Equation} (hfirst : first.IsComplete)
    (hsecond : second.IsComplete) (hscope : first.scope = second.scope)
    (hforbids : ∀ assignment : Assignment, assignment.length = first.scope.length →
      first.forbids assignment = second.forbids assignment) : first = second := by
  have hsize : first.forbidden.size = second.forbidden.size := by
    rw [hfirst, hsecond, hscope]
  have hrows : first.forbidden = second.forbidden := by
    ext row hrow hrow'
    · exact hsize
    · obtain ⟨assignment, hwidth, rfl⟩ := Assignment.exists_row_eq (hfirst ▸ hrow)
      have hverdict : first.forbidden[assignment.row]? = second.forbidden[assignment.row]? := by
        rw [hfirst.getElem?_row hwidth, hsecond.getElem?_row (hscope ▸ hwidth),
          hforbids assignment hwidth]
      rw [Array.getElem?_eq_getElem hrow, Array.getElem?_eq_getElem hrow'] at hverdict
      exact Option.some.inj hverdict
  cases first
  cases second
  exact congr (congrArg Equation.mk hscope) hrows

/-- Two complete tables over the same distinct variables are equal when they exclude the
same valuations. -/
theorem eq_of_excludes {first second : Equation} (hfirst : first.IsComplete)
    (hsecond : second.IsComplete) (hdistinct : first.scope.Nodup)
    (hscope : first.scope = second.scope)
    (hexcludes : ∀ valuation, first.excludes valuation = second.excludes valuation) :
    first = second := by
  apply eq_of_forbids hfirst hsecond hscope
  rw [forall_assignment_iff hdistinct]
  intro valuation
  have hverdict := hexcludes valuation
  rwa [excludes, excludes, ← hscope] at hverdict

theorem mem_forbidden_iff (hcomplete : equation.IsComplete) (hdistinct : equation.scope.Nodup)
    {verdict : Bool} :
    verdict ∈ equation.forbidden ↔ ∃ valuation, equation.excludes valuation = verdict := by
  rw [Array.mem_iff_getElem?]
  apply Iff.intro
  · intro h
    rcases h with ⟨row, hfound⟩
    have hrow := (Array.getElem?_eq_some_iff.mp hfound).1
    obtain ⟨valuation, rfl⟩ := exists_valuation_row hcomplete hdistinct hrow
    rw [hcomplete.getElem?_row_map] at hfound
    exact ⟨valuation, Option.some.inj hfound⟩
  · intro h
    rcases h with ⟨valuation, rfl⟩
    exact ⟨_, hcomplete.getElem?_row_map valuation⟩

/-- All rows hold one verdict when every valuation is given it. -/
theorem all_forbidden_iff (hcomplete : equation.IsComplete) (hdistinct : equation.scope.Nodup)
    (verdict : Bool) :
    equation.forbidden.all (· == verdict) = true ↔
      ∀ valuation, equation.excludes valuation = verdict := by
  rw [Array.all_eq_true_iff_forall_mem]
  apply Iff.intro
  · intro hall valuation
    have hrow := hall _ ((mem_forbidden_iff hcomplete hdistinct).mpr ⟨valuation, rfl⟩)
    exact beq_iff_eq.mp hrow
  · intro hall row hrow
    obtain ⟨valuation, rfl⟩ := (mem_forbidden_iff hcomplete hdistinct).mp hrow
    exact beq_iff_eq.mpr (hall valuation)

theorem isTautology_iff (hcomplete : equation.IsComplete) (hdistinct : equation.scope.Nodup) :
    equation.isTautology = true ↔ ∀ valuation, equation.excludes valuation = false :=
  all_forbidden_iff hcomplete hdistinct false

theorem isContradiction_iff (hcomplete : equation.IsComplete)
    (hdistinct : equation.scope.Nodup) :
    equation.isContradiction = true ↔ ∀ valuation, equation.excludes valuation = true :=
  all_forbidden_iff hcomplete hdistinct true

end ElectiveCalculus.Equation
