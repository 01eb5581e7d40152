/-
# What elimination makes

Eliminating a variable from a table over distinct variables quantifies over its
bit: the result excludes a valuation when the equation excludes it with either bit
in the place of the symbol's own. Eliminating several variables one after another
quantifies over all of their bits at once. The result is a table over the other
variables in their order, and their places are the only thing that a further
elimination finds changed.
-/

import ElectiveCalculus.Equation.Elimination
import ElectiveCalculus.Proofs.Outcomes
import ElectiveCalculus.Proofs.Valuation
import Mathlib

namespace ElectiveCalculus.Equation

variable {settings : Log.Settings} {equation : Equation} {symbol : SymbolName}

theorem outcome_eliminate :
    ((equation.eliminate symbol).run settings).outcome =
      if symbol ∈ equation.scope then .ok (equation.project (equation.scope.idxOf symbol))
      else .error (.unknownVariable symbol equation.scope) := by
  rw [eliminate]
  by_cases hsymbol : symbol ∈ equation.scope
  · have hplace : equation.scope.findIdx? (· == symbol) =
        some (equation.scope.idxOf symbol) :=
      List.findIdx?_eq_some_iff_findIdx_eq.mpr ⟨List.idxOf_lt_length_of_mem hsymbol, rfl⟩
    rw [if_pos hsymbol, hplace]
    simp only [Log.Logged.outcome_bind, Log.Logged.run_writeEquation, Log.Logged.run_pure]
    rfl
  · have hnone : equation.scope.findIdx? (· == symbol) = none := by
      rw [List.findIdx?_eq_none_iff]
      exact fun name hname => beq_false_of_ne fun heq => hsymbol (heq ▸ hname)
    rw [if_neg hsymbol, hnone]
    rfl

theorem outcome_eliminate_eq_ok_iff {result : Equation} :
    ((equation.eliminate symbol).run settings).outcome = .ok result ↔
      symbol ∈ equation.scope ∧ result = equation.project (equation.scope.idxOf symbol) := by
  rw [outcome_eliminate]
  by_cases hsymbol : symbol ∈ equation.scope <;> simp [hsymbol, eq_comm]

theorem outcome_eliminate_eq_error_iff {error : Error} :
    ((equation.eliminate symbol).run settings).outcome = .error error ↔
      symbol ∉ equation.scope ∧ error = .unknownVariable symbol equation.scope := by
  rw [outcome_eliminate]
  by_cases hsymbol : symbol ∈ equation.scope <;> simp [hsymbol, eq_comm]

theorem scope_project_idxOf (equation : Equation) (symbol : SymbolName) :
    (equation.project (equation.scope.idxOf symbol)).scope = equation.scope.erase symbol :=
  (List.erase_eq_eraseIdx_of_idxOf rfl).symm

theorem isComplete_project (position : Nat) : (equation.project position).IsComplete :=
  isComplete_ofVerdicts _ _

/-- A row is forbidden when both rows are that put a bit back at the position. -/
theorem forbids_project {position : Nat} {rest : Assignment}
    (hwidth : rest.length = (equation.project position).scope.length) :
    (equation.project position).forbids rest =
      (equation.forbids (rest.insertIdx position false) &&
        equation.forbids (rest.insertIdx position true)) :=
  forbids_ofVerdicts _ hwidth

/-- Eliminating one of distinct variables quantifies over its bit. -/
theorem excludes_project (hdistinct : equation.scope.Nodup) (hsymbol : symbol ∈ equation.scope)
    (valuation : Valuation) :
    (equation.project (equation.scope.idxOf symbol)).excludes valuation =
      (equation.excludes (Function.update valuation symbol false) &&
        equation.excludes (Function.update valuation symbol true)) := by
  have hplace := List.idxOf_lt_length_of_mem hsymbol
  have hback := insertIdx_map_eraseIdx valuation hdistinct hplace
  rw [List.getElem_idxOf hplace] at hback
  have hscope : (equation.project (equation.scope.idxOf symbol)).scope =
      equation.scope.eraseIdx (equation.scope.idxOf symbol) := rfl
  rw [excludes, forbids_project (List.length_map _), hscope, hback false, hback true]
  rfl

/-! ## Several symbols -/

/-- What eliminating symbols one after another leaves of a table over distinct
variables, whenever it succeeds. -/
theorem eliminateAll_spec {symbols : List SymbolName} {result : Equation}
    (hcomplete : equation.IsComplete) (hdistinct : equation.scope.Nodup)
    (heliminated : ((equation.eliminateAll symbols).run settings).outcome = .ok result) :
    result.scope = equation.scope.filter (fun name => name ∉ symbols) ∧ result.IsComplete ∧
      ∀ valuation : Valuation, result.excludes valuation = true ↔
        ∀ other : Valuation, (∀ name ∈ result.scope, other name = valuation name) →
          equation.excludes other = true := by
  rw [eliminateAll, Log.Logged.outcome_foldlM] at heliminated
  induction symbols generalizing equation with
  | nil =>
      cases heliminated
      refine ⟨by simp, hcomplete, fun valuation => ⟨fun h other hagree => ?_, fun h => ?_⟩⟩
      · rw [excludes, List.map_congr_left hagree]
        exact h
      · exact h valuation fun _ _ => rfl
  | cons symbol rest ih =>
      rw [List.foldlM_cons] at heliminated
      obtain ⟨next, hnext, hrest⟩ := bind_eq_ok_iff.mp heliminated
      obtain ⟨hsymbol, rfl⟩ := outcome_eliminate_eq_ok_iff.mp hnext
      have hscope := scope_project_idxOf equation symbol
      obtain ⟨hleft, hcomplete', hexcludes⟩ := ih (isComplete_project _)
        (by rw [hscope]; exact hdistinct.erase symbol) hrest
      rw [hscope, hdistinct.erase_eq_filter, List.filter_filter] at hleft
      have hgone : symbol ∉ result.scope := by
        rw [hleft]
        simp
      refine ⟨?_, hcomplete', fun valuation => ?_⟩
      · rw [hleft]
        apply List.filter_congr
        intro name _
        by_cases hname : name = symbol <;> simp [hname]
      · rw [hexcludes valuation]
        simp only [excludes_project hdistinct hsymbol, Bool.and_eq_true]
        exact forall_update_iff hgone valuation fun other => equation.excludes other = true

end ElectiveCalculus.Equation
