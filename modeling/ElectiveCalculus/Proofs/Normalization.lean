/-
# What normalization makes

Normalization succeeds exactly when the variables are admitted and include every
symbol of both sides, and its table then forbids the assignments under which the
Boolean readings of the sides differ. The limit and the log have no part in the
table.

That a symbol outside the variables is always found needs one assignment to every
list of variables, also to the empty one.
-/

import ElectiveCalculus.Proofs.Evaluation
import Mathlib

namespace ElectiveCalculus

/-- A list of variables that normalization admits. -/
structure Admissible (limit : Int) (scope : List SymbolName) : Prop where
  withinLimit : (scope.length : Int) ≤ limit
  letters : ∀ name ∈ scope, SymbolName.isLetter name = true
  distinct : scope.Nodup

/-- Leaving variables out of an admitted list keeps it admitted. -/
theorem Admissible.filter {limit : Int} {scope : List SymbolName}
    (hadmitted : Admissible limit scope) (kept : SymbolName → Bool) :
    Admissible limit (scope.filter kept) where
  withinLimit := (Int.ofNat_le.mpr (List.length_filter_le kept scope)).trans hadmitted.withinLimit
  letters name hname := hadmitted.letters name (List.mem_filter.mp hname).1
  distinct := hadmitted.distinct.filter kept

/-- The names are checked one by one, each against those before it. -/
theorem variableFault_eq_none_iff {seen scope : List SymbolName} :
    variableFault seen scope = none ↔
      (∀ name ∈ scope, SymbolName.isLetter name = true) ∧ scope.Nodup ∧
        ∀ name ∈ scope, name ∉ seen := by
  induction scope generalizing seen with
  | nil => simp [variableFault]
  | cons name rest ih =>
      rw [variableFault]
      by_cases hletter : SymbolName.isLetter name = true
      · by_cases hseen : name ∈ seen
        · simp [hletter, hseen]
        · have hcontains : seen.contains name = false := by simpa using hseen
          rw [hletter, hcontains, if_neg (by decide), if_neg (by decide), ih]
          simp only [List.mem_cons, List.nodup_cons, forall_eq_or_imp, hletter, hseen, not_or]
          apply Iff.intro
          · intro h
            rcases h with ⟨hletters, hdistinct, hfresh⟩
            exact ⟨⟨trivial, hletters⟩, ⟨fun h => (hfresh name h).1 rfl, hdistinct⟩, not_false,
              fun other h => (hfresh other h).2⟩
          · intro h
            rcases h with ⟨⟨-, hletters⟩, ⟨hname, hdistinct⟩, -, hfresh⟩
            exact ⟨hletters, hdistinct, fun other h => ⟨fun heq => hname (heq ▸ h), hfresh other h⟩⟩
      · simp [hletter]

theorem variableFault_nil_eq_none_iff {scope : List SymbolName} :
    variableFault [] scope = none ↔
      (∀ name ∈ scope, SymbolName.isLetter name = true) ∧ scope.Nodup := by
  simp [variableFault_eq_none_iff]

theorem checkVariables_eq_ok_iff {limit : Int} {scope : List SymbolName} :
    checkVariables limit scope = .ok () ↔ Admissible limit scope := by
  rw [checkVariables]
  by_cases hlimit : limit < scope.length
  · rw [if_pos hlimit]
    simp only [reduceCtorEq, false_iff]
    exact fun h => not_le.mpr hlimit h.withinLimit
  · rw [if_neg hlimit]
    cases hfault : variableFault [] scope with
    | none =>
        obtain ⟨hletters, hdistinct⟩ := variableFault_nil_eq_none_iff.mp hfault
        exact ⟨fun _ => ⟨not_lt.mp hlimit, hletters, hdistinct⟩, fun _ => rfl⟩
    | some fault =>
        refine ⟨fun h => ?_, fun h => ?_⟩
        · cases h
        · rw [variableFault_nil_eq_none_iff.mpr ⟨h.letters, h.distinct⟩] at hfault
          cases hfault

namespace Equation

/-- The table of the assignments under which two expressions differ. -/
def ofSides (scope : List SymbolName) (lhs rhs : Expr) : Equation :=
  ofVerdicts scope fun assignment =>
    lhs.holds (assignment.valuation scope) != rhs.holds (assignment.valuation scope)

theorem isComplete_ofSides (scope : List SymbolName) (lhs rhs : Expr) :
    (ofSides scope lhs rhs).IsComplete :=
  isComplete_ofVerdicts scope _

variable {scope : List SymbolName} {lhs rhs : Expr}

/-- An expression over the variables of a scope reads the assignment that a valuation
induces there as the valuation. -/
theorem holds_valuation_map {expr : Expr} (hscope : ∀ name ∈ expr.symbols, name ∈ scope)
    (valuation : Valuation) :
    expr.holds (Assignment.valuation scope (scope.map valuation)) = expr.holds valuation := by
  apply Expr.holds_congr
  intro name hname
  rw [Assignment.valuation,
    lookup_zip_map_of_mem valuation (hscope name (Expr.mem_symbols.mpr hname)), Option.getD_some]

theorem excludes_ofSides (hlhs : ∀ name ∈ lhs.symbols, name ∈ scope)
    (hrhs : ∀ name ∈ rhs.symbols, name ∈ scope) (valuation : Valuation) :
    (ofSides scope lhs rhs).excludes valuation = (lhs.holds valuation != rhs.holds valuation) := by
  rw [ofSides, excludes_ofVerdicts, holds_valuation_map hlhs, holds_valuation_map hrhs]

theorem isForbidden_ofSides_map (hlhs : ∀ name ∈ lhs.symbols, name ∈ scope)
    (hrhs : ∀ name ∈ rhs.symbols, name ∈ scope) (valuation : Valuation) :
    (ofSides scope lhs rhs).isForbidden (scope.map valuation) =
      .ok (lhs.holds valuation != rhs.holds valuation) := by
  rw [← excludes_ofSides hlhs hrhs valuation]
  exact isForbidden_map (ofSides scope lhs rhs) valuation

theorem isForbidden_ofSides (hlhs : ∀ name ∈ lhs.symbols, name ∈ scope)
    (hrhs : ∀ name ∈ rhs.symbols, name ∈ scope) (valuation : Valuation) :
    (ofSides scope lhs rhs).isForbidden (scope.map valuation) = .ok true ↔
      lhs.holds valuation ≠ rhs.holds valuation := by
  rw [isForbidden_ofSides_map hlhs hrhs, Except.ok.injEq, bne_iff_ne]

/-- A row is computed from the values of both sides, and these are bits. -/
theorem sidesDiffer_map (hlhs : ∀ name ∈ lhs.symbols, name ∈ scope)
    (hrhs : ∀ name ∈ rhs.symbols, name ∈ scope) (valuation : Valuation) :
    sidesDiffer lhs rhs scope (scope.map valuation) =
      .ok (lhs.holds valuation != rhs.holds valuation) := by
  rw [sidesDiffer, Expr.evaluate_bitValues hlhs, Expr.evaluate_bitValues hrhs]
  cases lhs.holds valuation <;> cases rhs.holds valuation <;> rfl

theorem tabulate_eq_ok (hdistinct : scope.Nodup) (hlhs : ∀ name ∈ lhs.symbols, name ∈ scope)
    (hrhs : ∀ name ∈ rhs.symbols, name ∈ scope) :
    tabulate lhs rhs scope = .ok (ofSides scope lhs rhs) := by
  refine bind_eq_ok_iff.mpr ⟨_, mapM_eq_ok_iff.mpr ?_, rfl⟩
  rw [List.forall₂_map_right_iff, List.forall₂_same]
  intro assignment hassignment
  obtain ⟨valuation, rfl⟩ := exists_valuation hdistinct (Assignment.mem_all.mp hassignment)
  rw [sidesDiffer_map hlhs hrhs, holds_valuation_map hlhs, holds_valuation_map hrhs]

/-- There is an assignment to any variables, and it is enough to find a symbol outside
them. -/
theorem mem_scope_of_tabulate {equation : Equation}
    (htable : tabulate lhs rhs scope = .ok equation) :
    (∀ name ∈ lhs.symbols, name ∈ scope) ∧ ∀ name ∈ rhs.symbols, name ∈ scope := by
  obtain ⟨rows, hrows, -⟩ := bind_eq_ok_iff.mp htable
  obtain ⟨verdict, -, hverdict⟩ := exists_of_forall₂ (mapM_eq_ok_iff.mp hrows)
    (scope.map fun _ => false) (Assignment.mem_all.mpr (List.length_map _))
  obtain ⟨left, hleft, hrest⟩ := bind_eq_ok_iff.mp hverdict
  obtain ⟨right, hright, -⟩ := bind_eq_ok_iff.mp hrest
  exact ⟨Expr.mem_scope_of_evaluate hleft, Expr.mem_scope_of_evaluate hright⟩

/-- Normalization first checks the variables and then makes the table. -/
theorem outcome_normalize {limit : Int} {settings : Log.Settings} :
    ((normalize limit lhs rhs scope).run settings).outcome =
      (checkVariables limit scope).bind fun _ =>
        (tabulate lhs rhs scope).mapError Error.unboundSymbol := by
  simp only [normalize, Log.Logged.outcome_bind, Log.Logged.run_ofExcept,
    Log.Logged.run_writeEquation, Log.Logged.run_pure]
  congr
  funext _
  cases tabulate lhs rhs scope <;> rfl

/-- Normalization succeeds exactly over admitted variables that include all symbols of
both sides, and makes the table of the assignments under which the sides differ. -/
theorem outcome_normalize_eq_ok_iff {limit : Int} {settings : Log.Settings}
    {equation : Equation} :
    ((normalize limit lhs rhs scope).run settings).outcome = .ok equation ↔
      Admissible limit scope ∧
        ((∀ name ∈ lhs.symbols, name ∈ scope) ∧ ∀ name ∈ rhs.symbols, name ∈ scope) ∧
          equation = ofSides scope lhs rhs := by
  rw [outcome_normalize, bind_eq_ok_iff]
  simp only [mapError_eq_ok_iff]
  apply Iff.intro
  · intro h
    rcases h with ⟨_, hcheck, htable⟩
    have hadmitted := checkVariables_eq_ok_iff.mp hcheck
    have hsymbols := mem_scope_of_tabulate htable
    rw [tabulate_eq_ok hadmitted.distinct hsymbols.1 hsymbols.2] at htable
    exact ⟨hadmitted, hsymbols, (Except.ok.inj htable).symm⟩
  · intro h
    rcases h with ⟨hadmitted, hsymbols, rfl⟩
    exact ⟨(), checkVariables_eq_ok_iff.mpr hadmitted,
      tabulate_eq_ok hadmitted.distinct hsymbols.1 hsymbols.2⟩

end Equation

end ElectiveCalculus
