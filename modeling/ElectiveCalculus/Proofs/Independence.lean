/-
# Variables that a table does not depend on

A table does not depend on a variable when both bits of the variable are given the same
verdict, whatever the other variables are. Eliminating such a variable forgets nothing:
what is left gives the verdicts of the table itself. An equation does not depend on a
variable that neither side mentions, and its table over the other variables is the one that
elimination leaves.

Elimination asks for both bits of a variable and conjunction for either of two equations,
and the two questions may be asked in either order only where one equation does not depend
on the variable. In general what is forbidden by the equations apart is forbidden by them
together, and not the other way round.
-/

import ElectiveCalculus.Proofs.SymbolicElimination
import Mathlib

namespace ElectiveCalculus.Equation

/-- Either bit of the symbol is given the same verdict, whatever bits the other names have. -/
def IsIndependentOf (equation : Equation) (symbol : SymbolName) : Prop :=
  ∀ valuation : Valuation, equation.excludes (Function.update valuation symbol false) =
    equation.excludes (Function.update valuation symbol true)

variable {equation : Equation} {symbol : SymbolName}

/-- Excluding both bits of a symbol that does not matter is excluding the one that it has. -/
theorem IsIndependentOf.excludes_both (hindependent : equation.IsIndependentOf symbol)
    (valuation : Valuation) :
    (equation.excludes (Function.update valuation symbol false) &&
        equation.excludes (Function.update valuation symbol true)) =
      equation.excludes valuation := by
  have hown : equation.excludes (Function.update valuation symbol (valuation symbol)) =
      equation.excludes valuation := by
    rw [Function.update_eq_self]
  rw [← hown, hindependent valuation, Bool.and_self]
  cases valuation symbol with
  | false => exact (hindependent valuation).symm
  | true => rfl

/-- Over distinct variables it is enough to put either bit in the place of the symbol. -/
theorem isIndependentOf_iff (hdistinct : equation.scope.Nodup)
    (hsymbol : symbol ∈ equation.scope) :
    equation.IsIndependentOf symbol ↔
      ∀ rest : Assignment, rest.length = (equation.scope.erase symbol).length →
        equation.isForbidden (rest.insertIdx (equation.scope.idxOf symbol) false) =
          equation.isForbidden (rest.insertIdx (equation.scope.idxOf symbol) true) := by
  have hplace := List.idxOf_lt_length_of_mem hsymbol
  rw [List.erase_eq_eraseIdx_of_idxOf rfl,
    forall_assignment_iff (hdistinct.sublist (List.eraseIdx_sublist _ _))]
  apply forall_congr'
  intro valuation
  have hback := insertIdx_map_eraseIdx valuation hdistinct hplace
  rw [List.getElem_idxOf hplace] at hback
  rw [hback false, hback true, isForbidden_map, isForbidden_map, Except.ok.injEq]

/-! ## Variables that no side mentions -/

section Unused

variable {limit : Int} {scope : List SymbolName} {lhs rhs : Expr}

theorem isIndependentOf_ofSides (hlhs : ∀ name ∈ lhs.symbols, name ∈ scope)
    (hrhs : ∀ name ∈ rhs.symbols, name ∈ scope) (hleft : symbol ∉ lhs.symbols)
    (hright : symbol ∉ rhs.symbols) : (ofSides scope lhs rhs).IsIndependentOf symbol := by
  intro valuation
  simp only [excludes_ofSides hlhs hrhs, Expr.holds_update_of_not_mem hleft,
    Expr.holds_update_of_not_mem hright]

/-- A variable that no side mentions can be eliminated from the table or left out of it from
the start. -/
theorem exists_eliminate_unused (settings : Log.Settings) (hadmitted : Admissible limit scope)
    (hlhs : ∀ name ∈ lhs.symbols, name ∈ scope) (hrhs : ∀ name ∈ rhs.symbols, name ∈ scope)
    (hsymbol : symbol ∈ scope) (hleft : symbol ∉ lhs.symbols) (hright : symbol ∉ rhs.symbols) :
    ∃ result, (((ofSides scope lhs rhs).eliminate symbol).run settings).outcome = .ok result ∧
      ((normalize limit lhs rhs (scope.filter (· != symbol))).run settings).outcome =
        .ok result := by
  have hkept {expr : Expr} (hexpr : ∀ name ∈ expr.symbols, name ∈ scope)
      (hunused : symbol ∉ expr.symbols) :
      ∀ name ∈ expr.symbols, name ∈ scope.filter (· != symbol) := by
    intro name hname
    rw [List.mem_filter, bne_iff_ne]
    exact ⟨hexpr name hname, fun heq => hunused (heq ▸ hname)⟩
  have hindependent := isIndependentOf_ofSides hlhs hrhs hleft hright
  apply exists_eliminate_eq_normalize settings (ofSides scope lhs rhs) hadmitted hsymbol
    (hkept hlhs hleft) (hkept hrhs hright)
  intro valuation
  rw [hindependent.excludes_both, excludes_ofSides hlhs hrhs]

/-- A variable that neither side of an equation mentions does not matter, wherever it stands:
elimination leaves the table over the other variables, and this table gives every assignment
the verdict of the first one, once the bit of the variable is dropped. -/
theorem unused_variable_does_not_matter (settings : Log.Settings)
    (hadmitted : Admissible limit scope) (hlhs : ∀ name ∈ lhs.symbols, name ∈ scope)
    (hrhs : ∀ name ∈ rhs.symbols, name ∈ scope) (hsymbol : symbol ∈ scope)
    (hleft : symbol ∉ lhs.symbols) (hright : symbol ∉ rhs.symbols) :
    ∃ table short, ((normalize limit lhs rhs scope).run settings).outcome = .ok table ∧
      ((normalize limit lhs rhs (scope.filter (· != symbol))).run settings).outcome =
        .ok short ∧
      ((table.eliminate symbol).run settings).outcome = .ok short ∧
      ∀ values : Assignment, values.length = scope.length →
        ∃ verdict, table.isForbidden values = .ok verdict ∧
          short.isForbidden (values.eraseIdx (scope.idxOf symbol)) = .ok verdict := by
  obtain ⟨short, heliminated, hnormal⟩ :=
    exists_eliminate_unused settings hadmitted hlhs hrhs hsymbol hleft hright
  have htable : ((normalize limit lhs rhs scope).run settings).outcome =
      .ok (ofSides scope lhs rhs) :=
    outcome_normalize_eq_ok_iff.mpr ⟨hadmitted, ⟨hlhs, hrhs⟩, rfl⟩
  refine ⟨_, short, htable, hnormal, heliminated, fun values hwidth => ?_⟩
  obtain ⟨valuation, rfl⟩ := exists_valuation hadmitted.distinct hwidth
  obtain ⟨-, ⟨hlhs', hrhs'⟩, rfl⟩ := outcome_normalize_eq_ok_iff.mp hnormal
  have hdropped : (scope.map valuation).eraseIdx (scope.idxOf symbol) =
      (scope.filter (· != symbol)).map valuation := by
    rw [List.eraseIdx_map, ← hadmitted.distinct.erase_eq_filter,
      List.erase_eq_eraseIdx_of_idxOf rfl]
  rw [hdropped]
  exact ⟨_, isForbidden_ofSides_map hlhs hrhs valuation,
    isForbidden_ofSides_map hlhs' hrhs' valuation⟩

/-- The equation `x = xz` does not mention the y between its variables. -/
theorem unused_variable_does_not_matter_between :
    (Admissible 3 terms ∧ (∀ name ∈ (Expr.sym "x").symbols, name ∈ terms) ∧
        (∀ name ∈ (Expr.product (.sym "x") (.sym "z")).symbols, name ∈ terms) ∧
        ("y" : SymbolName) ∈ terms ∧ ("y" : SymbolName) ∉ (Expr.sym "x").symbols ∧
        ("y" : SymbolName) ∉ (Expr.product (.sym "x") (.sym "z")).symbols) ∧
      ((eliminate ⟨terms, #[false, false, false, false, true, false, true, false]⟩ "y").run
        .off).outcome = .ok ⟨["x", "z"], #[false, false, true, false]⟩ := by
  have hadmitted : Admissible 3 terms := ⟨by decide, by decide, by decide⟩
  have hlhs : ∀ name ∈ (Expr.sym "x").symbols, name ∈ terms := by decide
  have hrhs : ∀ name ∈ (Expr.product (.sym "x") (.sym "z")).symbols, name ∈ terms := by decide
  have hsymbol : ("y" : SymbolName) ∈ terms := by decide
  have hleft : ("y" : SymbolName) ∉ (Expr.sym "x").symbols := by decide
  have hright : ("y" : SymbolName) ∉ (Expr.product (.sym "x") (.sym "z")).symbols := by decide
  obtain ⟨table, short, htable, hshort, heliminated, -⟩ :=
    unused_variable_does_not_matter .off hadmitted hlhs hrhs hsymbol hleft hright
  have htable' : ((normalize 3 (.sym "x") (.product (.sym "x") (.sym "z")) terms).run
      .off).outcome =
        .ok ⟨terms, #[false, false, false, false, true, false, true, false]⟩ := by cbv
  obtain rfl := Except.ok.inj (htable'.symm.trans htable)
  have hshort' : ((normalize 3 (.sym "x") (.product (.sym "x") (.sym "z")) ["x", "z"]).run
      .off).outcome = .ok ⟨["x", "z"], #[false, false, true, false]⟩ := by cbv
  have hscope : terms.filter (· != ("y" : SymbolName)) = ["x", "z"] := by decide
  rw [hscope] at hshort
  obtain rfl := Except.ok.inj (hshort'.symm.trans hshort)
  exact ⟨⟨hadmitted, hlhs, hrhs, hsymbol, hleft, hright⟩, heliminated⟩

end Unused

/-! ## Conjunctions -/

section Conjunction

variable {first second : Equation}

theorem scope_project_eq_scope_project (hscope : first.scope = second.scope) :
    (first.project (first.scope.idxOf symbol)).scope =
      (second.project (second.scope.idxOf symbol)).scope := by
  rw [scope_project_idxOf, scope_project_idxOf, hscope]

/-- Eliminating after conjoining asks each bit of the symbol for either equation. -/
theorem excludes_project_union (hcomplete : first.IsComplete)
    (hscope : first.scope = second.scope) (hdistinct : first.scope.Nodup)
    (hsymbol : symbol ∈ first.scope) (valuation : Valuation) :
    ((first.union second).project (first.scope.idxOf symbol)).excludes valuation =
      ((first.excludes (Function.update valuation symbol false) ||
          second.excludes (Function.update valuation symbol false)) &&
        (first.excludes (Function.update valuation symbol true) ||
          second.excludes (Function.update valuation symbol true))) := by
  have hunion := excludes_union hcomplete hscope
  have hscope' : (first.union second).scope = first.scope := rfl
  rw [← hunion, ← hunion, ← excludes_project (hscope' ▸ hdistinct) (hscope' ▸ hsymbol), hscope']

/-- Conjoining after eliminating asks each equation for both bits of the symbol. -/
theorem excludes_union_project (hscope : first.scope = second.scope)
    (hdistinct : first.scope.Nodup) (hsymbol : symbol ∈ first.scope) (valuation : Valuation) :
    ((first.project (first.scope.idxOf symbol)).union
        (second.project (second.scope.idxOf symbol))).excludes valuation =
      ((first.excludes (Function.update valuation symbol false) &&
          first.excludes (Function.update valuation symbol true)) ||
        (second.excludes (Function.update valuation symbol false) &&
          second.excludes (Function.update valuation symbol true))) := by
  rw [excludes_union (isComplete_project _) (scope_project_eq_scope_project hscope),
    excludes_project hdistinct hsymbol,
    excludes_project (hscope ▸ hdistinct) (hscope ▸ hsymbol)]

/-- What an equation excludes with both bits of the symbol, it excludes with each. -/
theorem excludes_project_union_of_excludes (hfirst : first.IsComplete)
    (hscope : first.scope = second.scope) (hdistinct : first.scope.Nodup)
    (hsymbol : symbol ∈ first.scope) {valuation : Valuation}
    (hapart : ((first.project (first.scope.idxOf symbol)).union
      (second.project (second.scope.idxOf symbol))).excludes valuation = true) :
    ((first.union second).project (first.scope.idxOf symbol)).excludes valuation = true := by
  rw [excludes_union_project hscope hdistinct hsymbol, Bool.or_eq_true, Bool.and_eq_true,
    Bool.and_eq_true] at hapart
  rw [excludes_project_union hfirst hscope hdistinct hsymbol, Bool.and_eq_true, Bool.or_eq_true,
    Bool.or_eq_true]
  exact ⟨hapart.imp And.left And.left, hapart.imp And.right And.right⟩

/-- An equation that does not depend on the symbol has one verdict for both bits, and then it
does not matter which is asked first. -/
theorem union_project_of_independent (hfirst : first.IsComplete)
    (hscope : first.scope = second.scope) (hdistinct : first.scope.Nodup)
    (hsymbol : symbol ∈ first.scope) (hindependent : second.IsIndependentOf symbol) :
    (first.project (first.scope.idxOf symbol)).union
        (second.project (second.scope.idxOf symbol)) =
      (first.union second).project (first.scope.idxOf symbol) := by
  have hleft : ((first.project (first.scope.idxOf symbol)).union
      (second.project (second.scope.idxOf symbol))).IsComplete :=
    isComplete_union _ (isComplete_project _)
  have hdistinct' : (first.project (first.scope.idxOf symbol)).scope.Nodup := by
    rw [scope_project_idxOf]
    exact hdistinct.erase symbol
  refine eq_of_excludes hleft (isComplete_project _) hdistinct' rfl fun valuation => ?_
  rw [excludes_union_project hscope hdistinct hsymbol,
    excludes_project_union hfirst hscope hdistinct hsymbol, hindependent valuation, Bool.and_self,
    Bool.or_and_distrib_right]

/-- Whatever one of two equations over the same distinct variables forbids without a symbol
is forbidden without it by both together. Where the second equation does not depend on the
symbol, nothing else is: the symbol may be eliminated before the equations are conjoined, and
an equation between expressions without the symbol may be normalized without it. Rows that the
second table lacks are forbidden by it neither early nor late. -/
theorem elimination_over_conjunction (settings : Log.Settings) (hfirst : first.IsComplete)
    (hscope : first.scope = second.scope) (hdistinct : first.scope.Nodup)
    (hsymbol : symbol ∈ first.scope) :
    ∃ joint late left right early,
      ((first.conjoin second).run settings).outcome = .ok joint ∧
      ((joint.eliminate symbol).run settings).outcome = .ok late ∧
      ((first.eliminate symbol).run settings).outcome = .ok left ∧
      ((second.eliminate symbol).run settings).outcome = .ok right ∧
      ((left.conjoin right).run settings).outcome = .ok early ∧
      (early.scope = late.scope ∧ ∀ rest : Assignment, rest.length = early.scope.length →
        early.isForbidden rest = .ok true → late.isForbidden rest = .ok true) ∧
      ((∀ rest : Assignment, rest.length = early.scope.length →
          second.isForbidden (rest.insertIdx (second.scope.idxOf symbol) false) =
            second.isForbidden (rest.insertIdx (second.scope.idxOf symbol) true)) →
        early = late) ∧
      ∀ (limit : Int) (lhs rhs : Expr),
        ((normalize limit lhs rhs second.scope).run settings).outcome = .ok second →
          symbol ∉ lhs.symbols → symbol ∉ rhs.symbols →
            ∃ short,
              ((normalize limit lhs rhs (second.scope.filter (· != symbol))).run
                settings).outcome = .ok short ∧
              ((left.conjoin short).run settings).outcome = .ok late := by
  have hsymbol' : symbol ∈ second.scope := hscope ▸ hsymbol
  have hleft := scope_project_idxOf first symbol
  have hsame := union_project_of_independent hfirst hscope hdistinct hsymbol
  refine ⟨_, _, _, _, _, outcome_conjoin_eq_ok_iff.mpr ⟨hscope, rfl⟩,
    outcome_eliminate_eq_ok_iff.mpr ⟨hsymbol, rfl⟩,
    outcome_eliminate_eq_ok_iff.mpr ⟨hsymbol, rfl⟩,
    outcome_eliminate_eq_ok_iff.mpr ⟨hsymbol', rfl⟩,
    outcome_conjoin_eq_ok_iff.mpr ⟨scope_project_eq_scope_project hscope, rfl⟩, ⟨rfl, ?_⟩, ?_, ?_⟩
  · have hdistinct' : (first.project (first.scope.idxOf symbol)).scope.Nodup :=
      hleft ▸ hdistinct.erase symbol
    intro rest hwidth hforbidden
    obtain ⟨valuation, rfl⟩ := exists_valuation hdistinct' hwidth
    have hapart := Except.ok.inj ((isForbidden_map _ valuation).symm.trans hforbidden)
    have htogether := excludes_project_union_of_excludes hfirst hscope hdistinct hsymbol hapart
    exact (isForbidden_map _ valuation).trans (congrArg Except.ok htogether)
  · intro hverdicts
    apply hsame
    rw [isIndependentOf_iff (hscope ▸ hdistinct) hsymbol', ← scope_project_idxOf,
      ← scope_project_eq_scope_project hscope]
    exact hverdicts
  · intro limit lhs rhs hnormal hleft hright
    obtain ⟨hadmitted, ⟨hlhs, hrhs⟩, htable⟩ := outcome_normalize_eq_ok_iff.mp hnormal
    obtain ⟨short, heliminated, hshort⟩ :=
      exists_eliminate_unused settings hadmitted hlhs hrhs hsymbol' hleft hright
    have hindependent := isIndependentOf_ofSides hlhs hrhs hleft hright
    rw [← htable] at heliminated hindependent
    obtain ⟨-, rfl⟩ := outcome_eliminate_eq_ok_iff.mp heliminated
    refine ⟨_, hshort, outcome_conjoin_eq_ok_iff.mpr ⟨scope_project_eq_scope_project hscope, ?_⟩⟩
    exact (hsame hindependent).symm

/-- Over x, y and z, all x are y and all y are z. -/
def chain : Equation :=
  ⟨terms, #[false, false, true, false, true, true, true, false]⟩

/-- Over x, y and z, there is no z. -/
def withoutZ : Equation :=
  ⟨terms, #[false, true, false, true, false, true, false, true]⟩

/-- That there is no z does not depend on y, so y may be eliminated from the chain alone. -/
theorem elimination_over_conjunction_chain :
    (chain.IsComplete ∧ chain.scope = withoutZ.scope ∧ chain.scope.Nodup ∧
        ("y" : SymbolName) ∈ chain.scope) ∧
      (((chain.union withoutZ).eliminate "y").run .off).outcome =
        .ok ⟨["x", "z"], #[false, true, true, true]⟩ := by
  have hcomplete : chain.IsComplete := rfl
  have hscope : chain.scope = withoutZ.scope := rfl
  have hdistinct : chain.scope.Nodup := by decide
  have hsymbol : ("y" : SymbolName) ∈ chain.scope := by decide
  obtain ⟨joint, late, left, right, early, hjoint, hlate, hleft, hright, hearly, -, hsame, -⟩ :=
    elimination_over_conjunction .off hcomplete hscope hdistinct hsymbol
  obtain ⟨-, rfl⟩ := outcome_conjoin_eq_ok_iff.mp hjoint
  have hleft' : ((chain.eliminate "y").run .off).outcome =
      .ok ⟨["x", "z"], #[false, false, true, false]⟩ := by cbv
  obtain rfl := Except.ok.inj (hleft'.symm.trans hleft)
  have hright' : ((withoutZ.eliminate "y").run .off).outcome =
      .ok ⟨["x", "z"], #[false, true, false, true]⟩ := by cbv
  obtain rfl := Except.ok.inj (hright'.symm.trans hright)
  have hearly' : ((conjoin ⟨["x", "z"], #[false, false, true, false]⟩
      ⟨["x", "z"], #[false, true, false, true]⟩).run .off).outcome =
        .ok ⟨["x", "z"], #[false, true, true, true]⟩ := by cbv
  obtain rfl := Except.ok.inj (hearly'.symm.trans hearly)
  have hverdicts : ∀ rest : Assignment, rest.length = 2 →
      withoutZ.isForbidden (rest.insertIdx (withoutZ.scope.idxOf ("y" : SymbolName)) false) =
        withoutZ.isForbidden (rest.insertIdx (withoutZ.scope.idxOf ("y" : SymbolName)) true) := by
    intro rest hwidth
    obtain ⟨first, second, rfl⟩ := List.length_eq_two.mp hwidth
    cases first <;> cases second <;> rfl
  rw [← hsame hverdicts] at hlate
  exact ⟨⟨hcomplete, hscope, hdistinct, hsymbol⟩, hlate⟩

end Conjunction

end ElectiveCalculus.Equation
