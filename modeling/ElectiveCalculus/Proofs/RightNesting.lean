/-
# Right-nested expressions

The notation shows the factors of a product and not how they were nested, so many
trees are written alike. Of these one is right-nested: in it no product stands as
the left factor of a product. Every expression has a right-nested form with the
same factors at every level, and the form keeps the symbols, their order, and the
value under every binding.

Multiplication must be associative for the value to be kept, so the values here
are integers.
-/

import ElectiveCalculus.Expr.Evaluation
import Mathlib

namespace ElectiveCalculus.Expr

/-- The factors of an expression from left to right, however its products are
nested, with the argument of every complement right-nested. -/
def nestedFactors : Expr → List Expr
  | .sym name => [.sym name]
  | .const value => [.const value]
  | .not arg => [.not (ofFactors arg.nestedFactors)]
  | .product left right => left.nestedFactors ++ right.nestedFactors

/-- The expression with the same factors at every level and every product nested to
the right. -/
def rightNested (expr : Expr) : Expr := ofFactors expr.nestedFactors

def isProduct : Expr → Bool
  | .product _ _ => true
  | _ => false

/-- No product in the expression has a product as its left factor. -/
def isRightNested : Expr → Bool
  | .sym _ => true
  | .const _ => true
  | .not arg => arg.isRightNested
  | .product left right => !left.isProduct && left.isRightNested && right.isRightNested

theorem nestedFactors_ne_nil (expr : Expr) : expr.nestedFactors ≠ [] := by
  induction expr with
  | sym name => simp [nestedFactors]
  | const value => simp [nestedFactors]
  | not arg ih => simp [nestedFactors]
  | product left right ihLeft ihRight => simp [nestedFactors, ihLeft]

theorem ofFactors_cons (factor : Expr) {rest : List Expr} (hrest : rest ≠ []) :
    ofFactors (factor :: rest) = .product factor (ofFactors rest) := by
  cases rest with
  | nil => exact absurd rfl hrest
  | cons next rest => rfl

/-! ## The form is reached, and left alone -/

theorem isRightNested_ofFactors {factors : List Expr}
    (hfactors : ∀ factor ∈ factors, factor.isProduct = false ∧ factor.isRightNested = true) :
    (ofFactors factors).isRightNested = true := by
  induction factors with
  | nil => rfl
  | cons factor rest ih =>
      obtain ⟨hproduct, hnested⟩ := hfactors factor List.mem_cons_self
      by_cases hrest : rest = []
      · subst hrest
        exact hnested
      · rw [ofFactors_cons factor hrest, isRightNested, hproduct, hnested,
          ih fun other hother => hfactors other (List.mem_cons_of_mem _ hother)]
        rfl

theorem mem_nestedFactors {expr factor : Expr} (hfactor : factor ∈ expr.nestedFactors) :
    factor.isProduct = false ∧ factor.isRightNested = true := by
  induction expr generalizing factor with
  | sym name =>
      obtain rfl := List.mem_singleton.mp hfactor
      exact ⟨rfl, rfl⟩
  | const value =>
      obtain rfl := List.mem_singleton.mp hfactor
      exact ⟨rfl, rfl⟩
  | not arg ih =>
      obtain rfl := List.mem_singleton.mp hfactor
      exact ⟨rfl, isRightNested_ofFactors fun _ => ih⟩
  | product left right ihLeft ihRight =>
      rcases List.mem_append.mp hfactor with hleft | hright
      · exact ihLeft hleft
      · exact ihRight hright

theorem isRightNested_rightNested (expr : Expr) : expr.rightNested.isRightNested = true :=
  isRightNested_ofFactors fun _ => mem_nestedFactors

/-- An expression that is no product is its own only factor, once it is nested. -/
theorem nestedFactors_of_not_product {expr : Expr} (hproduct : expr.isProduct = false) :
    expr.nestedFactors = [expr.rightNested] := by
  cases expr with
  | sym name => rfl
  | const value => rfl
  | not arg => rfl
  | product left right => cases hproduct

theorem rightNested_product_of_not_product {left : Expr} (right : Expr)
    (hproduct : left.isProduct = false) :
    (Expr.product left right).rightNested = .product left.rightNested right.rightNested := by
  rw [rightNested, nestedFactors, nestedFactors_of_not_product hproduct, List.singleton_append,
    ofFactors_cons _ right.nestedFactors_ne_nil]
  rfl

/-- The expressions that are their own right-nested form are those in which no
product has a product as its left factor. -/
theorem rightNested_eq_self_iff {expr : Expr} :
    expr.rightNested = expr ↔ expr.isRightNested = true := by
  apply Iff.intro
  · intro h
    rw [← h]
    exact expr.isRightNested_rightNested
  · intro h
    induction expr with
    | sym name => rfl
    | const value => rfl
    | not arg ih =>
        have harg : arg.rightNested = arg := ih h
        exact congrArg Expr.not harg
    | product left right ihLeft ihRight =>
        simp only [isRightNested, Bool.and_eq_true, Bool.not_eq_true'] at h
        obtain ⟨⟨hproduct, hleft⟩, hright⟩ := h
        rw [rightNested_product_of_not_product right hproduct, ihLeft hleft, ihRight hright]

/-! ## What the form keeps -/

theorem occurrences_ofFactors (factors : List Expr) :
    (ofFactors factors).occurrences = factors.flatMap occurrences := by
  induction factors with
  | nil => rfl
  | cons factor rest ih =>
      by_cases hrest : rest = []
      · subst hrest
        simp [ofFactors]
      · rw [ofFactors_cons factor hrest, occurrences, ih, List.flatMap_cons]

theorem occurrences_rightNested (expr : Expr) :
    expr.rightNested.occurrences = expr.occurrences := by
  rw [rightNested, occurrences_ofFactors]
  induction expr with
  | sym name => rfl
  | const value => rfl
  | not arg ih =>
      rw [nestedFactors, List.flatMap_singleton, occurrences, occurrences_ofFactors, ih]
      rfl
  | product left right ihLeft ihRight =>
      rw [nestedFactors, List.flatMap_append, ihLeft, ihRight]
      rfl

theorem symbols_rightNested (expr : Expr) : expr.rightNested.symbols = expr.symbols := by
  rw [symbols, occurrences_rightNested, symbols]

section Values

variable {ε : Type} (meaning : SymbolName → Except ε Int)

/-- A product of factors may be cut between any two of them: the two parts are
evaluated in the same order as the whole. -/
theorem valueIn_ofFactors_append {first second : List Expr} (hfirst : first ≠ [])
    (hsecond : second ≠ []) :
    (ofFactors (first ++ second)).valueIn meaning =
      ((ofFactors first).product (ofFactors second)).valueIn meaning := by
  induction first with
  | nil => exact absurd rfl hfirst
  | cons factor rest ih =>
      by_cases hrest : rest = []
      · subst hrest
        rw [List.singleton_append, ofFactors_cons factor hsecond]
        rfl
      · have happend : rest ++ second ≠ [] := by simp [hrest]
        rw [List.cons_append, ofFactors_cons factor happend, ofFactors_cons factor hrest, valueIn,
          ih hrest]
        simp only [valueIn, bind_assoc, pure_bind, mul_assoc]

theorem valueIn_rightNested (expr : Expr) :
    expr.rightNested.valueIn meaning = expr.valueIn meaning := by
  induction expr with
  | sym name => rfl
  | const value => rfl
  | not arg ih =>
      have hnot : (Expr.not arg).rightNested = .not arg.rightNested := rfl
      rw [hnot, valueIn, ih, valueIn]
  | product left right ihLeft ihRight =>
      rw [rightNested, nestedFactors,
        valueIn_ofFactors_append meaning left.nestedFactors_ne_nil right.nestedFactors_ne_nil]
      show (Expr.product left.rightNested right.rightNested).valueIn meaning = _
      rw [valueIn, ihLeft, ihRight, valueIn]

end Values

theorem evaluate_rightNested (expr : Expr) (scope : List SymbolName) (values : List Int) :
    expr.rightNested.evaluate scope values = expr.evaluate scope values :=
  valueIn_rightNested _ expr

end ElectiveCalculus.Expr
