/-
# What conjunction makes

Equations over the same variables are conjoined row by row, and over other
variables not at all. On complete tables the union forbids the assignments that
either equation forbids, and a whole list of equations those that some member
forbids. A list is conjoined as long as its members range over the variables of
the first one, and is refused at the first member that does not.
-/

import ElectiveCalculus.Equation.Conjunction
import ElectiveCalculus.Proofs.Outcomes
import ElectiveCalculus.Proofs.Valuation
import Mathlib

namespace ElectiveCalculus.Equation

variable {settings : Log.Settings}

theorem outcome_conjoin (first second : Equation) :
    ((first.conjoin second).run settings).outcome =
      if first.scope = second.scope then .ok (first.union second)
      else .error (.variableMismatch first.scope second.scope) := by
  by_cases hscope : first.scope = second.scope
  · rw [conjoin, sameVariables_iff.mpr hscope, if_pos hscope]
    rfl
  · rw [conjoin, Bool.eq_false_iff.mpr (mt sameVariables_iff.mp hscope), if_neg hscope]
    rfl

theorem outcome_conjoin_eq_ok_iff {first second result : Equation} :
    ((first.conjoin second).run settings).outcome = .ok result ↔
      first.scope = second.scope ∧ result = first.union second := by
  rw [outcome_conjoin]
  by_cases hscope : first.scope = second.scope <;> simp [hscope, eq_comm]

theorem isComplete_union {first : Equation} (second : Equation) (hcomplete : first.IsComplete) :
    (first.union second).IsComplete := by
  rw [IsComplete, union, Array.size_mapIdx]
  exact hcomplete

/-- A complete first table has every row, so that none is missed in the union. -/
theorem IsComplete.forbids_union {first : Equation} (hcomplete : first.IsComplete)
    (second : Equation) {assignment : Assignment}
    (hwidth : assignment.length = first.scope.length) :
    (first.union second).forbids assignment =
      (first.forbids assignment || second.forbids assignment) := by
  apply Equation.forbids_union
  rw [hcomplete, ← hwidth]
  exact assignment.row_lt

theorem excludes_union {first second : Equation} (hcomplete : first.IsComplete)
    (hscope : first.scope = second.scope) (valuation : Valuation) :
    (first.union second).excludes valuation =
      (first.excludes valuation || second.excludes valuation) := by
  rw [excludes, excludes, excludes, ← hscope]
  exact hcomplete.forbids_union second (List.length_map _)

/-! ## Several equations -/

/-- A list of equations is conjoined to the union of all, or refused at the first member
over other variables than the first one has. The induction is on the members behind the
first one, which a union replaces without changing its variables. -/
theorem outcome_conjoinAll_cons (first : Equation) (rest : List Equation) :
    ((conjoinAll (first :: rest)).run settings).outcome =
      (rest.find? fun equation => equation.scope ≠ first.scope).elim
        (.ok (rest.foldl union first))
        fun other => .error (.variableMismatch first.scope other.scope) := by
  rw [conjoinAll, Log.Logged.outcome_foldlM]
  induction rest generalizing first with
  | nil => rfl
  | cons second rest ih =>
      rw [List.foldlM_cons, outcome_conjoin]
      by_cases hsecond : second.scope = first.scope
      · rw [if_pos hsecond.symm, List.find?_cons_of_neg (by simpa using hsecond)]
        exact ih (first.union second)
      · rw [if_neg (Ne.symm hsecond), List.find?_cons_of_pos (by simpa using hsecond)]
        rfl

theorem outcome_conjoinAll_cons_eq_ok_iff {first result : Equation} {rest : List Equation} :
    ((conjoinAll (first :: rest)).run settings).outcome = .ok result ↔
      (∀ equation ∈ rest, equation.scope = first.scope) ∧ result = rest.foldl union first := by
  rw [outcome_conjoinAll_cons]
  cases hother : rest.find? fun equation => equation.scope ≠ first.scope with
  | none =>
      rw [List.find?_eq_none] at hother
      simp only [Option.elim_none, Except.ok.injEq, @eq_comm _ result]
      refine (and_iff_right fun equation hequation => ?_).symm
      simpa using hother equation hequation
  | some other =>
      have hmem := List.mem_of_find?_eq_some hother
      have hdiffers : other.scope ≠ first.scope := by simpa using List.find?_some hother
      simp only [Option.elim_some, reduceCtorEq, false_iff]
      exact fun h => hdiffers (h.1 other hmem)

theorem outcome_conjoinAll_eq_error_iff {equations : List Equation} {error : Error} :
    ((conjoinAll equations).run settings).outcome = .error error ↔
      (equations = [] ∧ error = .variableMismatch [] []) ∨
        ∃ first rest other, equations = first :: rest ∧
          rest.find? (fun equation => equation.scope ≠ first.scope) = some other ∧
            error = .variableMismatch first.scope other.scope := by
  cases equations with
  | nil => simp [conjoinAll, eq_comm]
  | cons first rest =>
      rw [outcome_conjoinAll_cons]
      cases hother : rest.find? fun equation => equation.scope ≠ first.scope with
      | none =>
          simp only [Option.elim_none, reduceCtorEq, false_and, false_or, false_iff]
          intro h
          rcases h with ⟨_, _, other, hentry, hfound, -⟩
          cases hentry
          cases hother.symm.trans hfound
      | some other =>
          simp only [Option.elim_some, Except.error.injEq, reduceCtorEq, false_and, false_or]
          apply Iff.intro
          · intro herror
            exact ⟨first, rest, other, rfl, hother, herror.symm⟩
          · intro h
            rcases h with ⟨_, _, other', hentry, hfound, rfl⟩
            cases hentry
            rw [Option.some.inj (hother.symm.trans hfound)]

/-- The union of complete tables over the same variables is a complete table over
them, and forbids what some member forbids. -/
theorem foldl_union_spec {first : Equation} {rest : List Equation}
    (hcomplete : first.IsComplete)
    (hscope : ∀ equation ∈ rest, equation.scope = first.scope) :
    (rest.foldl union first).scope = first.scope ∧ (rest.foldl union first).IsComplete ∧
      ∀ assignment : Assignment, assignment.length = first.scope.length →
        ((rest.foldl union first).forbids assignment = true ↔
          ∃ equation ∈ first :: rest, equation.forbids assignment = true) := by
  induction rest generalizing first with
  | nil => simp [hcomplete]
  | cons second rest ih =>
      obtain ⟨hscope', hcomplete', hforbids⟩ := ih (isComplete_union second hcomplete)
        fun equation hequation => hscope equation (List.mem_cons_of_mem _ hequation)
      refine ⟨hscope', hcomplete', fun assignment hwidth => ?_⟩
      rw [List.foldl_cons, hforbids assignment hwidth]
      simp only [List.mem_cons, exists_eq_or_imp, hcomplete.forbids_union second hwidth,
        Bool.or_eq_true, or_assoc]

theorem excludes_foldl_union_iff {first : Equation} {rest : List Equation}
    (hcomplete : first.IsComplete)
    (hscope : ∀ equation ∈ rest, equation.scope = first.scope) (valuation : Valuation) :
    (rest.foldl union first).excludes valuation = true ↔
      ∃ equation ∈ first :: rest, equation.excludes valuation = true := by
  obtain ⟨hunion, -, hforbids⟩ := foldl_union_spec hcomplete hscope
  rw [excludes, hunion, hforbids _ (List.length_map _)]
  refine exists_congr fun equation => and_congr_right fun hequation => ?_
  have hsame : equation.scope = first.scope := by
    rcases List.mem_cons.mp hequation with rfl | hrest
    · rfl
    · exact hscope equation hrest
  rw [excludes, hsame]

end ElectiveCalculus.Equation
