/-
# Elimination by substitution

What elimination does to a table can be done to the equation before there is a table. The
equation that says that an expression is zero is left with the product of its two values,
one with zero and one with one in the place of the eliminated symbol. Where the symbol is
defined by an equation of its own, elimination puts the definition in its place.

In both cases the table of the substituted equation ranges over one variable less, and is
made anew from its own rows.
-/

import ElectiveCalculus.Proofs.Conjunction
import ElectiveCalculus.Proofs.Elimination
import ElectiveCalculus.Proofs.Extensionality
import ElectiveCalculus.Proofs.Normalization
import ElectiveCalculus.Proofs.Substitution
import Mathlib

namespace ElectiveCalculus.Equation

variable {limit : Int} {scope : List SymbolName} {symbol : SymbolName}

/-- Elimination makes the table of an equation in the other variables, when that equation
fails exactly for the valuations that are excluded with either bit of the symbol. -/
theorem exists_eliminate_eq_normalize (settings : Log.Settings) (equation : Equation)
    {lhs rhs : Expr} (hadmitted : Admissible limit equation.scope)
    (hsymbol : symbol ∈ equation.scope)
    (hlhs : ∀ name ∈ lhs.symbols, name ∈ equation.scope.filter (· != symbol))
    (hrhs : ∀ name ∈ rhs.symbols, name ∈ equation.scope.filter (· != symbol))
    (hexcludes : ∀ valuation : Valuation,
      (equation.excludes (Function.update valuation symbol false) &&
        equation.excludes (Function.update valuation symbol true)) =
          (lhs.holds valuation != rhs.holds valuation)) :
    ∃ result, ((equation.eliminate symbol).run settings).outcome = .ok result ∧
      ((normalize limit lhs rhs (equation.scope.filter (· != symbol))).run settings).outcome =
        .ok result := by
  have hdistinct := hadmitted.distinct
  have hscope : (equation.project (equation.scope.idxOf symbol)).scope =
      equation.scope.filter (· != symbol) := by
    rw [scope_project_idxOf, hdistinct.erase_eq_filter]
  have htable : equation.project (equation.scope.idxOf symbol) =
      ofSides (equation.scope.filter (· != symbol)) lhs rhs := by
    apply eq_of_excludes (isComplete_project _) (isComplete_ofSides _ _ _)
      (hscope ▸ hdistinct.filter _) hscope
    intro valuation
    rw [excludes_project hdistinct hsymbol, excludes_ofSides hlhs hrhs, hexcludes]
  exact ⟨_, outcome_eliminate_eq_ok_iff.mpr ⟨hsymbol, rfl⟩,
    outcome_normalize_eq_ok_iff.mpr ⟨hadmitted.filter _, ⟨hlhs, hrhs⟩, htable⟩⟩

/-! ## The product of the two values -/

/-- Eliminating a symbol from the equation that an expression is zero leaves the equation
that the product of its values for zero and for one is zero. -/
theorem eliminate_eq_product_of_values (settings : Log.Settings) {expr : Expr}
    (hadmitted : Admissible limit scope) (hsymbols : ∀ name ∈ expr.symbols, name ∈ scope)
    (hsymbol : symbol ∈ scope) :
    ∃ table result,
      ((normalize limit expr (.const false) scope).run settings).outcome = .ok table ∧
      ((table.eliminate symbol).run settings).outcome = .ok result ∧
      ((normalize limit
          (.product (Expr.substituteSymbol symbol (.const false) expr)
            (Expr.substituteSymbol symbol (.const true) expr))
          (.const false) (scope.filter (· != symbol))).run settings).outcome = .ok result := by
  have hconst (names : List SymbolName) : ∀ name ∈ (Expr.const false).symbols, name ∈ names := by
    simp
  have hinstance (bit : Bool) :
      ∀ name ∈ (Expr.substituteSymbol symbol (.const bit) expr).symbols,
        name ∈ scope.filter (· != symbol) :=
    Expr.mem_filter_of_mem_substituteSymbol hsymbols (by simp) (by simp)
  have hproduct : ∀ name ∈ (Expr.product (Expr.substituteSymbol symbol (.const false) expr)
      (Expr.substituteSymbol symbol (.const true) expr)).symbols,
        name ∈ scope.filter (· != symbol) := by
    intro name hname
    rcases Expr.mem_symbols_product.mp hname with hleft | hright
    · exact hinstance false name hleft
    · exact hinstance true name hright
  have hexcludes (valuation : Valuation) :
      (ofSides scope expr (.const false)).excludes valuation = expr.holds valuation := by
    rw [excludes_ofSides hsymbols (hconst scope), Expr.holds, Bool.bne_false]
  have hinstances (valuation : Valuation) :
      ((ofSides scope expr (.const false)).excludes (Function.update valuation symbol false) &&
        (ofSides scope expr (.const false)).excludes (Function.update valuation symbol true)) =
          ((Expr.product (Expr.substituteSymbol symbol (.const false) expr)
            (Expr.substituteSymbol symbol (.const true) expr)).holds valuation !=
              (Expr.const false).holds valuation) := by
    simp only [hexcludes, Expr.holds, Expr.holds_substituteSymbol, Bool.bne_false]
  obtain ⟨result, heliminated, hnormal⟩ := exists_eliminate_eq_normalize settings
    (ofSides scope expr (.const false)) hadmitted hsymbol hproduct (hconst _) hinstances
  exact ⟨_, result, outcome_normalize_eq_ok_iff.mpr ⟨hadmitted, ⟨hsymbols, hconst scope⟩, rfl⟩,
    heliminated, hnormal⟩

/-- Three variables, the middle one of which is to go. -/
def terms : List SymbolName := ["x", "y", "z"]

/-- What x selects where y does, and z selects elsewhere. -/
def selection : Expr :=
  .not (.product (.not (.product (.sym "y") (.sym "x")))
    (.not (.product (.not (.sym "y")) (.sym "z"))))

/-- Without y, that the selection is empty says that x and z have nothing in common. -/
theorem eliminate_eq_product_of_values_selection :
    (Admissible 3 terms ∧ (∀ name ∈ selection.symbols, name ∈ terms) ∧
        ("y" : SymbolName) ∈ terms) ∧
      ((normalize 3
          (.product (Expr.substituteSymbol "y" (.const false) selection)
            (Expr.substituteSymbol "y" (.const true) selection))
          (.const false) ["x", "z"]).run .off).outcome =
        .ok ⟨["x", "z"], #[false, false, false, true]⟩ := by
  have hadmitted : Admissible 3 terms := ⟨by decide, by decide, by decide⟩
  have hsymbols : ∀ name ∈ selection.symbols, name ∈ terms := by decide
  have hsymbol : ("y" : SymbolName) ∈ terms := by decide
  obtain ⟨table, result, htable, heliminated, hnormal⟩ :=
    eliminate_eq_product_of_values .off hadmitted hsymbols hsymbol
  have htable' : ((normalize 3 selection (.const false) terms).run .off).outcome =
      .ok ⟨terms, #[false, true, false, false, false, true, true, true]⟩ := by cbv
  obtain rfl := Except.ok.inj (htable'.symm.trans htable)
  have heliminated' : ((eliminate ⟨terms,
      #[false, true, false, false, false, true, true, true]⟩ "y").run .off).outcome =
        .ok ⟨["x", "z"], #[false, false, false, true]⟩ := by cbv
  obtain rfl := Except.ok.inj (heliminated'.symm.trans heliminated)
  exact ⟨⟨hadmitted, hsymbols, hsymbol⟩, hnormal⟩

/-! ## Defined symbols -/

/-- A symbol that an equation defines by an expression without it is eliminated by putting
the expression for it. -/
theorem eliminate_defined_symbol (settings : Log.Settings) {definition lhs rhs : Expr}
    (hadmitted : Admissible limit scope) (hsymbol : symbol ∈ scope)
    (hfresh : symbol ∉ definition.symbols)
    (hdefinition : ∀ name ∈ definition.symbols, name ∈ scope)
    (hlhs : ∀ name ∈ lhs.symbols, name ∈ scope) (hrhs : ∀ name ∈ rhs.symbols, name ∈ scope) :
    ∃ defined table joint result,
      ((normalize limit (.sym symbol) definition scope).run settings).outcome = .ok defined ∧
      ((normalize limit lhs rhs scope).run settings).outcome = .ok table ∧
      ((defined.conjoin table).run settings).outcome = .ok joint ∧
      ((joint.eliminate symbol).run settings).outcome = .ok result ∧
      ((normalize limit (Expr.substituteSymbol symbol definition lhs)
          (Expr.substituteSymbol symbol definition rhs)
          (scope.filter (· != symbol))).run settings).outcome = .ok result := by
  have hsym : ∀ name ∈ (Expr.sym symbol).symbols, name ∈ scope := by
    simpa using hsymbol
  have hexcludes (valuation : Valuation) :
      ((ofSides scope (.sym symbol) definition).union (ofSides scope lhs rhs)).excludes valuation =
        ((valuation symbol != definition.holds valuation) ||
          (lhs.holds valuation != rhs.holds valuation)) := by
    have hunion := excludes_union (isComplete_ofSides scope (.sym symbol) definition)
      (rfl : _ = (ofSides scope lhs rhs).scope) valuation
    rw [hunion, excludes_ofSides hsym hdefinition, excludes_ofSides hlhs hrhs, Expr.holds]
  -- of the two bits of the symbol, the one that its definition does not have is excluded
  have hpoint (valuation : Valuation) :
      (((ofSides scope (.sym symbol) definition).union (ofSides scope lhs rhs)).excludes
          (Function.update valuation symbol false) &&
        ((ofSides scope (.sym symbol) definition).union (ofSides scope lhs rhs)).excludes
          (Function.update valuation symbol true)) =
          ((Expr.substituteSymbol symbol definition lhs).holds valuation !=
            (Expr.substituteSymbol symbol definition rhs).holds valuation) := by
    simp only [hexcludes, Function.update_self, Expr.holds_update_of_not_mem hfresh,
      Expr.holds_substituteSymbol]
    cases definition.holds valuation <;> simp
  obtain ⟨result, heliminated, hnormal⟩ := exists_eliminate_eq_normalize settings
    ((ofSides scope (.sym symbol) definition).union (ofSides scope lhs rhs)) hadmitted hsymbol
    (Expr.mem_filter_of_mem_substituteSymbol hlhs hdefinition hfresh)
    (Expr.mem_filter_of_mem_substituteSymbol hrhs hdefinition hfresh) hpoint
  exact ⟨_, _, _, result,
    outcome_normalize_eq_ok_iff.mpr ⟨hadmitted, ⟨hsym, hdefinition⟩, rfl⟩,
    outcome_normalize_eq_ok_iff.mpr ⟨hadmitted, ⟨hlhs, hrhs⟩, rfl⟩,
    outcome_conjoin_eq_ok_iff.mpr ⟨rfl, rfl⟩, heliminated, hnormal⟩

/-- With the complement of z for y, that the selection is y leaves only what is x and not z. -/
theorem eliminate_defined_symbol_selection :
    (Admissible 3 terms ∧ ("y" : SymbolName) ∈ terms ∧
        ("y" : SymbolName) ∉ (Expr.not (.sym "z")).symbols ∧
        (∀ name ∈ (Expr.not (.sym "z")).symbols, name ∈ terms) ∧
        (∀ name ∈ selection.symbols, name ∈ terms) ∧
        ∀ name ∈ (Expr.sym "y").symbols, name ∈ terms) ∧
      ((normalize 3 (Expr.substituteSymbol "y" (.not (.sym "z")) selection)
          (Expr.substituteSymbol "y" (.not (.sym "z")) (.sym "y")) ["x", "z"]).run .off).outcome =
        .ok ⟨["x", "z"], #[true, true, false, true]⟩ := by
  have hadmitted : Admissible 3 terms := ⟨by decide, by decide, by decide⟩
  have hsymbol : ("y" : SymbolName) ∈ terms := by decide
  have hfresh : ("y" : SymbolName) ∉ (Expr.not (.sym "z")).symbols := by decide
  have hdefinition : ∀ name ∈ (Expr.not (.sym "z")).symbols, name ∈ terms := by decide
  have hlhs : ∀ name ∈ selection.symbols, name ∈ terms := by decide
  have hrhs : ∀ name ∈ (Expr.sym "y").symbols, name ∈ terms := by decide
  obtain ⟨defined, table, joint, result, hdefined, htable, hjoint, heliminated, hnormal⟩ :=
    eliminate_defined_symbol .off hadmitted hsymbol hfresh hdefinition hlhs hrhs
  have hdefined' : ((normalize 3 (.sym "y") (.not (.sym "z")) terms).run .off).outcome =
      .ok ⟨terms, #[true, false, false, true, true, false, false, true]⟩ := by cbv
  obtain rfl := Except.ok.inj (hdefined'.symm.trans hdefined)
  have htable' : ((normalize 3 selection (.sym "y") terms).run .off).outcome =
      .ok ⟨terms, #[false, true, true, true, false, true, false, false]⟩ := by cbv
  obtain rfl := Except.ok.inj (htable'.symm.trans htable)
  have hjoint' : ((conjoin ⟨terms, #[true, false, false, true, true, false, false, true]⟩
      ⟨terms, #[false, true, true, true, false, true, false, false]⟩).run .off).outcome =
        .ok ⟨terms, #[true, true, true, true, true, true, false, true]⟩ := by cbv
  obtain rfl := Except.ok.inj (hjoint'.symm.trans hjoint)
  have heliminated' : ((eliminate ⟨terms,
      #[true, true, true, true, true, true, false, true]⟩ "y").run .off).outcome =
        .ok ⟨["x", "z"], #[true, true, false, true]⟩ := by cbv
  obtain rfl := Except.ok.inj (heliminated'.symm.trans heliminated)
  exact ⟨⟨hadmitted, hsymbol, hfresh, hdefinition, hlhs, hrhs⟩, hnormal⟩

end ElectiveCalculus.Equation
