/-
# What normalization is refused for

Normalization looks for three kinds of faults in a fixed order: more variables than the
limit allows, a name that is refused as a variable, and a symbol that is no variable. A
kind is looked for only where the kinds before it are absent, and of several faults of
one kind the first in the order of writing is reported, the left side of the equation
before the right one.

Nothing is evaluated over variables that are not admitted, so an unbound symbol is only
ever reported over distinct letters. There it is found in the first row already, because
no row is evaluated without asking for all symbols.
-/

import ElectiveCalculus.Proofs.Normalization
import Mathlib

namespace ElectiveCalculus

/-! ## Refused variables -/

/-- A name is refused for a fault behind the names `before` it. A name that is no letter
is refused as such, wherever it stands. -/
def VariableFault.Spoils (name : SymbolName) (before : List SymbolName) : VariableFault → Prop
  | .notSymbol => SymbolName.isLetter name = false
  | .repeated => SymbolName.isLetter name = true ∧ name ∈ before

/-- `name` is the first variable of a list that is refused: the names `before` it are
distinct letters. -/
structure FirstRefused (scope before : List SymbolName) (fault : VariableFault)
    (name : SymbolName) : Prop where
  entry : ∃ after, scope = before ++ name :: after
  letters : ∀ earlier ∈ before, SymbolName.isLetter earlier = true
  distinct : before.Nodup
  spoils : fault.Spoils name before

/-- Only which names stand before matters. -/
theorem VariableFault.Spoils.congr {fault : VariableFault} {name : SymbolName}
    {before before' : List SymbolName} (hsame : ∀ other, other ∈ before ↔ other ∈ before') :
    fault.Spoils name before ↔ fault.Spoils name before' := by
  cases fault with
  | notSymbol => rfl
  | repeated => rw [Spoils, Spoils, hsame]

theorem variableFault_cons_of_spoils {seen rest : List SymbolName} {name : SymbolName}
    {fault : VariableFault} (hspoils : fault.Spoils name seen) :
    variableFault seen (name :: rest) = some (fault, name) := by
  cases fault with
  | notSymbol =>
      have hletter : SymbolName.isLetter name = false := hspoils
      rw [variableFault, hletter]
      rfl
  | repeated =>
      obtain ⟨hletter, hseen⟩ := hspoils
      rw [variableFault, hletter, List.contains_iff_mem.mpr hseen]
      rfl

/-- A name that is passed over joins the names already seen. -/
theorem variableFault_cons_of_fresh {seen rest : List SymbolName} {name : SymbolName}
    (hletter : SymbolName.isLetter name = true) (hseen : name ∉ seen) :
    variableFault seen (name :: rest) = variableFault (name :: seen) rest := by
  have hcontains : seen.contains name = false := by simpa using hseen
  rw [variableFault, hletter, hcontains]
  rfl

/-- A list is searched up to the first name that is refused. The inductions, one on the list
and one on the names passed over, carry the names already seen. -/
theorem variableFault_eq_some_iff {seen scope : List SymbolName} {fault : VariableFault}
    {name : SymbolName} :
    variableFault seen scope = some (fault, name) ↔
      ∃ before after, scope = before ++ name :: after ∧ variableFault seen before = none ∧
        fault.Spoils name (before ++ seen) := by
  have hmoved (first : SymbolName) (before seen : List SymbolName) :
      ∀ other, other ∈ before ++ first :: seen ↔ other ∈ (first :: before) ++ seen := by
    intro other
    simp [or_left_comm]
  apply Iff.intro
  · intro hfault
    induction scope generalizing seen with
    | nil => cases hfault
    | cons first rest ih =>
        by_cases hletter : SymbolName.isLetter first = true
        · by_cases hseen : first ∈ seen
          · have hspoils : VariableFault.repeated.Spoils first seen := ⟨hletter, hseen⟩
            rw [variableFault_cons_of_spoils hspoils] at hfault
            cases hfault
            exact ⟨[], rest, rfl, rfl, hspoils⟩
          · rw [variableFault_cons_of_fresh hletter hseen] at hfault
            rcases ih hfault with ⟨before, after, rfl, hbefore, hspoils⟩
            refine ⟨first :: before, after, rfl, ?_, ?_⟩
            · rw [variableFault_cons_of_fresh hletter hseen, hbefore]
            · exact (VariableFault.Spoils.congr (hmoved first before seen)).mp hspoils
        · have hspoils : VariableFault.notSymbol.Spoils first seen :=
            Bool.eq_false_iff.mpr hletter
          rw [variableFault_cons_of_spoils hspoils] at hfault
          cases hfault
          exact ⟨[], rest, rfl, rfl, hspoils⟩
  · intro h
    rcases h with ⟨before, after, rfl, hbefore, hspoils⟩
    induction before generalizing seen with
    | nil => exact variableFault_cons_of_spoils hspoils
    | cons first before ih =>
        obtain ⟨hletters, -, hfresh⟩ := variableFault_eq_none_iff.mp hbefore
        have hletter := hletters first List.mem_cons_self
        have hseen := hfresh first List.mem_cons_self
        rw [variableFault_cons_of_fresh hletter hseen] at hbefore
        rw [List.cons_append, variableFault_cons_of_fresh hletter hseen]
        exact ih hbefore ((VariableFault.Spoils.congr (hmoved first before seen)).mpr hspoils)

theorem variableFault_nil_eq_some_iff {scope : List SymbolName} {fault : VariableFault}
    {name : SymbolName} :
    variableFault [] scope = some (fault, name) ↔
      ∃ before, FirstRefused scope before fault name := by
  rw [variableFault_eq_some_iff]
  apply exists_congr
  intro before
  rw [variableFault_eq_none_iff, List.append_nil]
  apply Iff.intro
  · intro h
    rcases h with ⟨after, hentry, ⟨hletters, hdistinct, -⟩, hspoils⟩
    exact ⟨⟨after, hentry⟩, hletters, hdistinct, hspoils⟩
  · intro h
    obtain ⟨⟨after, hentry⟩, hletters, hdistinct, hspoils⟩ := h
    exact ⟨after, hentry, ⟨hletters, hdistinct, fun _ _ => List.not_mem_nil⟩, hspoils⟩

/-- The number of variables is checked before their names. -/
theorem checkVariables_eq_error_iff {limit : Int} {scope : List SymbolName} {error : Error} :
    checkVariables limit scope = .error error ↔
      limit < scope.length ∧ error = .variableLimit scope.length limit ∨
        scope.length ≤ limit ∧ ∃ before fault name, FirstRefused scope before fault name ∧
          error = .invalidVariables fault name scope := by
  rw [checkVariables]
  by_cases hlimit : limit < scope.length
  · simp [hlimit, not_le.mpr hlimit, eq_comm]
  · rw [if_neg hlimit]
    simp only [hlimit, not_lt.mp hlimit, false_and, true_and, false_or]
    cases hfault : variableFault [] scope with
    | none =>
        simp only [reduceCtorEq, false_iff]
        intro h
        rcases h with ⟨before, fault, name, hrefused, -⟩
        rw [variableFault_nil_eq_some_iff.mpr ⟨before, hrefused⟩] at hfault
        cases hfault
    | some found =>
        obtain ⟨fault, name⟩ := found
        simp only [Except.error.injEq]
        apply Iff.intro
        · intro h
          obtain ⟨before, hrefused⟩ := variableFault_nil_eq_some_iff.mp hfault
          exact ⟨before, fault, name, hrefused, h.symm⟩
        · intro h
          rcases h with ⟨before, fault', name', hrefused, rfl⟩
          rw [variableFault_nil_eq_some_iff.mpr ⟨before, hrefused⟩] at hfault
          cases hfault
          rfl

namespace Equation

variable {scope : List SymbolName} {lhs rhs : Expr}

/-! ## Unbound symbols -/

/-- The right side is asked for its symbols only where the left side has a value. -/
theorem sidesDiffer_eq_error_iff (valuation : Valuation) {error : UnboundSymbol} :
    sidesDiffer lhs rhs scope (scope.map valuation) = .error error ↔
      ∃ name, (lhs.symbols ++ rhs.symbols).find? (fun name => name ∉ scope) = some name ∧
        error = ⟨name, scope⟩ := by
  refine combine_eq_error_iff.trans ?_
  simp only [exists_eq_ok_iff, ne_eq, Expr.evaluate_eq_error_iff, List.find?_append]
  cases lhs.symbols.find? fun name => name ∉ scope with
  | none => simp
  | some name => simp

/-- Every row of a table fails alike, and there is a row over any variables. -/
theorem tabulate_eq_error_iff (hdistinct : scope.Nodup) {error : UnboundSymbol} :
    tabulate lhs rhs scope = .error error ↔
      ∃ name, (lhs.symbols ++ rhs.symbols).find? (fun name => name ∉ scope) = some name ∧
        error = ⟨name, scope⟩ := by
  have hrows : tabulate lhs rhs scope = .error error ↔
      (Assignment.all scope.length).mapM (sidesDiffer lhs rhs scope) = .error error := by
    rw [tabulate]
    cases (Assignment.all scope.length).mapM (sidesDiffer lhs rhs scope) <;>
      simp [bind, Except.bind, pure, Except.pure]
  rw [hrows, mapM_eq_error_iff]
  apply Iff.intro
  · intro h
    rcases h with ⟨before, assignment, after, hentry, -, hassignment⟩
    have hwidth : assignment ∈ Assignment.all scope.length := by simp [hentry]
    obtain ⟨valuation, rfl⟩ := exists_valuation hdistinct (Assignment.mem_all.mp hwidth)
    exact (sidesDiffer_eq_error_iff valuation).mp hassignment
  · intro h
    obtain ⟨first, rest, hentry⟩ : ∃ first rest, Assignment.all scope.length = first :: rest := by
      apply List.exists_cons_of_length_pos
      rw [Assignment.length_all]
      exact Nat.two_pow_pos _
    have hwidth : first ∈ Assignment.all scope.length := by simp [hentry]
    obtain ⟨valuation, rfl⟩ := exists_valuation hdistinct (Assignment.mem_all.mp hwidth)
    exact ⟨[], _, rest, hentry, by simp, (sidesDiffer_eq_error_iff valuation).mpr h⟩

end Equation

/-! ## The order of the faults -/

/-- What the normalization of an equation over a list of variables is refused for, and the
error that says so. -/
inductive NormalizationFault (limit : Int) (lhs rhs : Expr) (scope : List SymbolName) :
    Error → Prop
  /-- The limit allows fewer variables. -/
  | tooMany (hmany : limit < scope.length) :
      NormalizationFault limit lhs rhs scope (.variableLimit scope.length limit)
  /-- Within the limit, some variable is refused. -/
  | refused {before : List SymbolName} {fault : VariableFault} {name : SymbolName}
      (hlimit : scope.length ≤ limit) (hrefused : FirstRefused scope before fault name) :
      NormalizationFault limit lhs rhs scope (.invalidVariables fault name scope)
  /-- Over admitted variables, some symbol of the sides is no variable. -/
  | unbound {name : SymbolName} (hadmitted : Admissible limit scope)
      (hname : (lhs.symbols ++ rhs.symbols).find? (fun name => name ∉ scope) = some name) :
      NormalizationFault limit lhs rhs scope (.unboundSymbol ⟨name, scope⟩)

namespace Equation

variable {limit : Int} {scope : List SymbolName} {lhs rhs : Expr} {settings : Log.Settings}

/-- Normalization fails exactly where it is refused, with the error that says what for. -/
theorem outcome_normalize_eq_error_iff {error : Error} :
    ((normalize limit lhs rhs scope).run settings).outcome = .error error ↔
      NormalizationFault limit lhs rhs scope error := by
  rw [outcome_normalize, bind_eq_error_iff, checkVariables_eq_error_iff]
  simp only [mapError_eq_error_iff]
  apply Iff.intro
  · intro h
    rcases h with (⟨hmany, rfl⟩ | ⟨hlimit, before, fault, name, hrefused, rfl⟩) |
      ⟨_, hcheck, cause, htable, rfl⟩
    · exact .tooMany hmany
    · exact .refused hlimit hrefused
    · have hadmitted := checkVariables_eq_ok_iff.mp hcheck
      obtain ⟨name, hname, rfl⟩ := (tabulate_eq_error_iff hadmitted.distinct).mp htable
      exact .unbound hadmitted hname
  · intro h
    cases h with
    | tooMany hmany => exact Or.inl (Or.inl ⟨hmany, rfl⟩)
    | refused hlimit hrefused => exact Or.inl (Or.inr ⟨hlimit, _, _, _, hrefused, rfl⟩)
    | unbound hadmitted hname =>
        have htable := (tabulate_eq_error_iff hadmitted.distinct).mpr ⟨_, hname, rfl⟩
        exact Or.inr ⟨(), checkVariables_eq_ok_iff.mpr hadmitted, _, htable, rfl⟩

end Equation

end ElectiveCalculus
