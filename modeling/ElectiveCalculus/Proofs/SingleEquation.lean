/-
# Several equations in one

That two expressions are equal is said by a third one, which denies that either of them
selects what the other leaves out and is worth one exactly where they have the same value.
The product of several such expressions is worth one where all of the equations hold, so
that it is equal to the unit is one equation for all of them.

Its table is made from the values of one large expression, and it is the table that the
equations make when each is normalized on its own and the results are conjoined.
-/

import ElectiveCalculus.Proofs.Constituents
import Mathlib

namespace ElectiveCalculus

namespace Sides

/-- The expression that is worth one where the two sides of an equation have the same value:
neither selects what the other leaves out. -/
def agreement (sides : Sides Expr) : Expr :=
  .product (.not (.product sides.lhs (.not sides.rhs)))
    (.not (.product (.not sides.lhs) sides.rhs))

theorem holds_agreement (sides : Sides Expr) (valuation : Valuation) :
    sides.agreement.holds valuation =
      (sides.lhs.holds valuation == sides.rhs.holds valuation) := by
  simp only [agreement, Expr.holds]
  cases sides.lhs.holds valuation <;> cases sides.rhs.holds valuation <;> rfl

theorem mem_symbols_agreement {sides : Sides Expr} {name : SymbolName} :
    name ∈ sides.agreement.symbols ↔ name ∈ sides.lhs.symbols ++ sides.rhs.symbols := by
  simp only [agreement, Expr.mem_symbols_product, Expr.symbols_not, List.mem_append, or_self]

end Sides

theorem Expr.mem_symbols_ofFactors {factors : List Expr} {name : SymbolName} :
    name ∈ (ofFactors factors).symbols ↔ ∃ factor ∈ factors, name ∈ factor.symbols := by
  simp only [mem_symbols, occurrences_ofFactors, List.mem_flatMap]

namespace Equation

variable {limit : Int} {scope : List SymbolName} {equations : List (Sides Expr)}

theorem agreements_subset
    (hsymbols : ∀ sides ∈ equations, ∀ name ∈ sides.lhs.symbols ++ sides.rhs.symbols,
      name ∈ scope) :
    ∀ name ∈ (Expr.ofFactors (equations.map Sides.agreement)).symbols, name ∈ scope := by
  intro name hname
  obtain ⟨factor, hfactor, hname⟩ := Expr.mem_symbols_ofFactors.mp hname
  obtain ⟨sides, hsides, rfl⟩ := List.mem_map.mp hfactor
  exact hsymbols sides hsides name (Sides.mem_symbols_agreement.mp hname)

/-- The product of the agreements fails where some equation does. -/
theorem excludes_ofSides_agreements
    (hsymbols : ∀ sides ∈ equations, ∀ name ∈ sides.lhs.symbols ++ sides.rhs.symbols,
      name ∈ scope) (valuation : Valuation) :
    (ofSides scope (.const true) (.ofFactors (equations.map Sides.agreement))).excludes
        valuation = true ↔
      ∃ sides ∈ equations, (ofSides scope sides.lhs sides.rhs).excludes valuation = true := by
  have hfails : ∀ sides ∈ equations,
      ((ofSides scope sides.lhs sides.rhs).excludes valuation = true ↔
        sides.agreement.holds valuation = false) := by
    intro sides hsides
    obtain ⟨hlhs, hrhs⟩ := List.forall_mem_append.mp (hsymbols sides hsides)
    rw [excludes_ofSides hlhs hrhs, sides.holds_agreement, bne_iff_ne, beq_eq_false_iff_ne]
  rw [excludes_ofSides (Expr.symbols_const_subset true) (agreements_subset hsymbols),
    Expr.holds_ofFactors, Expr.holds, Bool.true_bne, Bool.not_eq_true', List.all_eq_false]
  simp only [List.mem_map, exists_exists_and_eq_and, Bool.not_eq_true]
  exact exists_congr fun sides => and_congr_right fun hsides => (hfails sides hsides).symm

/-- Equations that are normalized one by one and then conjoined make the table of one
equation: that the product of their agreements is the unit. -/
theorem equations_as_one (settings : Log.Settings) (hadmitted : Admissible limit scope)
    (hnonempty : equations ≠ [])
    (hsymbols : ∀ sides ∈ equations, ∀ name ∈ sides.lhs.symbols ++ sides.rhs.symbols,
      name ∈ scope) :
    ∃ tables joint,
      ((equations.mapM fun sides => normalize limit sides.lhs sides.rhs scope).run
        settings).outcome = .ok tables ∧
      ((conjoinAll tables).run settings).outcome = .ok joint ∧
      ((normalize limit (.const true) (.ofFactors (equations.map Sides.agreement)) scope).run
        settings).outcome = .ok joint := by
  refine ⟨equations.map fun sides => ofSides scope sides.lhs sides.rhs, _, ?_, ?_,
    outcome_normalize_eq_ok_iff.mpr ⟨hadmitted,
      ⟨Expr.symbols_const_subset true, agreements_subset hsymbols⟩, rfl⟩⟩
  · rw [Log.Logged.outcome_mapM, mapM_eq_ok_iff, List.forall₂_map_right_iff, List.forall₂_same]
    intro sides hsides
    exact outcome_normalize_eq_ok_iff.mpr
      ⟨hadmitted, List.forall_mem_append.mp (hsymbols sides hsides), rfl⟩
  · apply outcome_conjoinAll_eq (isComplete_ofSides _ _ _) hadmitted.distinct
    · rwa [ne_eq, List.map_eq_nil_iff]
    · intro table htable
      obtain ⟨sides, -, rfl⟩ := List.mem_map.mp htable
      exact ⟨rfl, isComplete_ofSides _ _ _⟩
    · intro valuation
      rw [excludes_ofSides_agreements hsymbols]
      simp only [List.mem_map, exists_exists_and_eq_and]

/-- All y are x and all z are y, in one equation. -/
theorem equations_as_one_barbara :
    (Admissible 16 ["x", "y", "z"] ∧
      ∀ sides ∈ [(⟨.sym "y", .product (.sym "y") (.sym "x")⟩ : Sides Expr),
          ⟨.sym "z", .product (.sym "z") (.sym "y")⟩],
        ∀ name ∈ sides.lhs.symbols ++ sides.rhs.symbols,
          name ∈ (["x", "y", "z"] : List SymbolName)) ∧
      ((normalize 16 (.const true) (.ofFactors
          [Sides.agreement ⟨.sym "y", .product (.sym "y") (.sym "x")⟩,
            Sides.agreement ⟨.sym "z", .product (.sym "z") (.sym "y")⟩]) ["x", "y", "z"]).run
        .off).outcome =
          .ok ⟨["x", "y", "z"], #[false, true, true, true, false, true, false, false]⟩ := by
  have hadmitted : Admissible 16 ["x", "y", "z"] := ⟨by decide, by decide, by decide⟩
  have hsymbols : ∀ sides ∈ [(⟨.sym "y", .product (.sym "y") (.sym "x")⟩ : Sides Expr),
      ⟨.sym "z", .product (.sym "z") (.sym "y")⟩],
        ∀ name ∈ sides.lhs.symbols ++ sides.rhs.symbols,
          name ∈ (["x", "y", "z"] : List SymbolName) := by decide
  obtain ⟨tables, joint, htables, hjoint, hsingle⟩ :=
    equations_as_one .off hadmitted (List.cons_ne_nil _ _) hsymbols
  have htables' : (([(⟨.sym "y", .product (.sym "y") (.sym "x")⟩ : Sides Expr),
      ⟨.sym "z", .product (.sym "z") (.sym "y")⟩].mapM fun sides =>
        normalize 16 sides.lhs sides.rhs ["x", "y", "z"]).run .off).outcome =
      .ok [⟨["x", "y", "z"], #[false, false, true, true, false, false, false, false]⟩,
        ⟨["x", "y", "z"], #[false, true, false, false, false, true, false, false]⟩] := by cbv
  obtain rfl := Except.ok.inj (htables'.symm.trans htables)
  have hjoint' : ((conjoinAll
      [⟨["x", "y", "z"], #[false, false, true, true, false, false, false, false]⟩,
        ⟨["x", "y", "z"], #[false, true, false, false, false, true, false, false]⟩]).run
      .off).outcome =
        .ok ⟨["x", "y", "z"], #[false, true, true, true, false, true, false, false]⟩ := by cbv
  obtain rfl := Except.ok.inj (hjoint'.symm.trans hjoint)
  exact ⟨⟨hadmitted, hsymbols⟩, hsingle⟩

end Equation

end ElectiveCalculus
