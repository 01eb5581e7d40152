/-
# The normal form of an equation is canonical

The table of an equation forbids an assignment when the Boolean readings of the two sides
differ under it, and these are the values that both sides are evaluated to. Nothing else
about the two expressions is left in the table: equations normalized over the same
variables have the same table exactly when they are satisfied by the same assignments.
Equations that every assignment satisfies, or none, are the two extremes of this.
-/

import ElectiveCalculus.Proofs.Extensionality
import ElectiveCalculus.Proofs.Normalization
import Mathlib

namespace ElectiveCalculus.Equation

variable {scope : List SymbolName} {lhs rhs : Expr}

/-- The table of an equation excludes the valuations that do not satisfy it. -/
theorem excludes_ofSides_iff (hlhs : ∀ name ∈ lhs.symbols, name ∈ scope)
    (hrhs : ∀ name ∈ rhs.symbols, name ∈ scope) (valuation : Valuation) :
    (ofSides scope lhs rhs).excludes valuation = true ↔
      ¬ Sides.SatisfiedBy ⟨lhs, rhs⟩ scope (scope.map valuation) := by
  rw [excludes_ofSides hlhs hrhs, bne_iff_ne, Sides.satisfiedBy_iff hlhs hrhs]

/-- Over the same distinct variables the tables of two equations are equal when the same
valuations satisfy the equations. -/
theorem ofSides_eq_iff {lhs' rhs' : Expr} (hdistinct : scope.Nodup)
    (hlhs : ∀ name ∈ lhs.symbols, name ∈ scope) (hrhs : ∀ name ∈ rhs.symbols, name ∈ scope)
    (hlhs' : ∀ name ∈ lhs'.symbols, name ∈ scope)
    (hrhs' : ∀ name ∈ rhs'.symbols, name ∈ scope) :
    ofSides scope lhs rhs = ofSides scope lhs' rhs' ↔
      ∀ valuation, Sides.SatisfiedBy ⟨lhs, rhs⟩ scope (scope.map valuation) ↔
        Sides.SatisfiedBy ⟨lhs', rhs'⟩ scope (scope.map valuation) := by
  have hverdicts (valuation : Valuation) :
      (ofSides scope lhs rhs).excludes valuation = (ofSides scope lhs' rhs').excludes valuation ↔
        (Sides.SatisfiedBy ⟨lhs, rhs⟩ scope (scope.map valuation) ↔
          Sides.SatisfiedBy ⟨lhs', rhs'⟩ scope (scope.map valuation)) := by
    rw [Bool.eq_iff_iff, excludes_ofSides_iff hlhs hrhs, excludes_ofSides_iff hlhs' hrhs',
      not_iff_not]
  apply Iff.intro
  · intro hequal valuation
    exact (hverdicts valuation).mp (by rw [hequal])
  · intro hsame
    have hexcludes (valuation : Valuation) := (hverdicts valuation).mpr (hsame valuation)
    exact eq_of_excludes (isComplete_ofSides scope lhs rhs) (isComplete_ofSides scope lhs' rhs')
      hdistinct rfl hexcludes

/-- The table of an equation answers with the Boolean readings of its sides, which are
their values, and it tells equations apart only by the assignments that satisfy them. -/
theorem normal_form_is_canonical {limit : Int} {settings : Log.Settings} {table : Equation}
    (hrun : ((normalize limit lhs rhs scope).run settings).outcome = .ok table) :
    (∀ values : Assignment, values.length = scope.length →
      scope.map (values.valuation scope) = values ∧
        table.isForbidden values =
          .ok (lhs.holds (values.valuation scope) != rhs.holds (values.valuation scope)) ∧
        lhs.evaluate scope (bitValues values) =
          .ok (if lhs.holds (values.valuation scope) then 1 else 0) ∧
        rhs.evaluate scope (bitValues values) =
          .ok (if rhs.holds (values.valuation scope) then 1 else 0)) ∧
    (∀ (limit' : Int) (settings' : Log.Settings) (lhs' rhs' : Expr) (table' : Equation),
      ((normalize limit' lhs' rhs' scope).run settings').outcome = .ok table' →
        (table.equal table' = true ↔
          ∀ values : Assignment, values.length = scope.length →
            (Sides.SatisfiedBy ⟨lhs, rhs⟩ scope values ↔
              Sides.SatisfiedBy ⟨lhs', rhs'⟩ scope values))) ∧
    (table.isTautology = true ↔
      ∀ values : Assignment, values.length = scope.length →
        Sides.SatisfiedBy ⟨lhs, rhs⟩ scope values) ∧
    (table.isContradiction = true ↔
      ∀ values : Assignment, values.length = scope.length →
        ¬ Sides.SatisfiedBy ⟨lhs, rhs⟩ scope values) := by
  obtain ⟨hadmitted, ⟨hlhs, hrhs⟩, rfl⟩ := outcome_normalize_eq_ok_iff.mp hrun
  have hdistinct := hadmitted.distinct
  have hcomplete := isComplete_ofSides scope lhs rhs
  refine ⟨?_, ?_, ?_, ?_⟩
  · intro values hwidth
    have hvalues := map_valuation hdistinct hwidth
    have hasked := isForbidden_ofSides_map hlhs hrhs (values.valuation scope)
    have hleft := Expr.evaluate_bitValues hlhs (values.valuation scope)
    have hright := Expr.evaluate_bitValues hrhs (values.valuation scope)
    rw [hvalues] at hasked hleft hright
    exact ⟨hvalues, hasked, hleft, hright⟩
  · intro limit' settings' lhs' rhs' table' hrun'
    obtain ⟨-, ⟨hlhs', hrhs'⟩, rfl⟩ := outcome_normalize_eq_ok_iff.mp hrun'
    rw [equal_iff, ofSides_eq_iff hdistinct hlhs hrhs hlhs' hrhs', forall_assignment_iff hdistinct]
  · rw [isTautology_iff hcomplete hdistinct, forall_assignment_iff hdistinct]
    apply forall_congr'
    intro valuation
    rw [← Bool.not_eq_true, excludes_ofSides_iff hlhs hrhs, not_not]
  · rw [isContradiction_iff hcomplete hdistinct, forall_assignment_iff hdistinct]
    exact forall_congr' (excludes_ofSides_iff hlhs hrhs)

/-- `x = xy` and `x(1-y) = 0` have one table, so the same assignments satisfy them. -/
theorem normal_form_is_canonical_affirmative :
    ((normalize 16 (.sym "x") (.product (.sym "x") (.sym "y")) ["x", "y"]).run .off).outcome =
        .ok ⟨["x", "y"], #[false, false, true, false]⟩ ∧
      ((normalize 2 (.product (.sym "x") (.not (.sym "y"))) (.const false) ["x", "y"]).run
        .everything).outcome = .ok ⟨["x", "y"], #[false, false, true, false]⟩ ∧
      ∀ values : Assignment, values.length = 2 →
        (Sides.SatisfiedBy ⟨.sym "x", .product (.sym "x") (.sym "y")⟩ ["x", "y"] values ↔
          Sides.SatisfiedBy ⟨.product (.sym "x") (.not (.sym "y")), .const false⟩ ["x", "y"]
            values) := by
  have hfirst : ((normalize 16 (.sym "x") (.product (.sym "x") (.sym "y")) ["x", "y"]).run
      .off).outcome = .ok ⟨["x", "y"], #[false, false, true, false]⟩ := by cbv
  have hsecond : ((normalize 2 (.product (.sym "x") (.not (.sym "y"))) (.const false)
      ["x", "y"]).run .everything).outcome =
        .ok ⟨["x", "y"], #[false, false, true, false]⟩ := by cbv
  have hsame := (normal_form_is_canonical hfirst).2.1 _ _ _ _ _ hsecond
  exact ⟨hfirst, hsecond, hsame.mp (equal_iff.mpr rfl)⟩

end ElectiveCalculus.Equation
