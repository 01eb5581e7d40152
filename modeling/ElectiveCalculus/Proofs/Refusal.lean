/-
# When normalization is refused

Each kind of refusal has its condition in the arguments alone: the number of variables and
the limit, the names of the variables, and the symbols of the two sides. A condition is
asked for only where those before it do not hold, and where none holds there is a table.

Two things follow that no check looks for. There are too few letters to name more than
twenty-six variables, so that no limit admits them. And every symbol is looked up whatever
the other values are, so that a factor of zero hides no symbol outside the variables, and
neither does a table over no variables, which has one row all the same.
-/

import ElectiveCalculus.Proofs.NormalizationFaults
import ElectiveCalculus.Proofs.Reachability
import Mathlib

namespace ElectiveCalculus

/-- No variable of a list is refused when all are letters and none stands there twice. -/
theorem not_exists_firstRefused_iff {scope : List SymbolName} :
    (¬ ∃ before fault name, FirstRefused scope before fault name) ↔
      (∀ name ∈ scope, SymbolName.isLetter name = true) ∧ scope.Nodup := by
  rw [← variableFault_nil_eq_none_iff, Option.eq_none_iff_forall_ne_some]
  apply Iff.intro
  · intro hnone found hfound
    obtain ⟨before, hrefused⟩ := variableFault_nil_eq_some_iff.mp hfound
    exact hnone ⟨before, found.1, found.2, hrefused⟩
  · intro hnone h
    rcases h with ⟨before, fault, name, hrefused⟩
    exact hnone (fault, name) (variableFault_nil_eq_some_iff.mpr ⟨before, hrefused⟩)

/-- A list of variables has a first one that is refused when it has any that is no letter
or stands there a second time. -/
theorem exists_firstRefused_iff {scope : List SymbolName} :
    (∃ before fault name, FirstRefused scope before fault name) ↔
      ∃ before name after, scope = before ++ name :: after ∧
        (SymbolName.isLetter name = false ∨ name ∈ before) := by
  apply Iff.intro
  · intro h
    rcases h with ⟨before, fault, name, ⟨after, hentry⟩, -, -, hspoils⟩
    refine ⟨before, name, after, hentry, ?_⟩
    cases fault with
    | notSymbol => exact Or.inl hspoils
    | repeated => exact Or.inr hspoils.2
  · intro h
    rcases h with ⟨before, name, after, rfl, hrefused⟩
    by_contra hnone
    obtain ⟨hletters, hdistinct⟩ := not_exists_firstRefused_iff.mp hnone
    rcases hrefused with hletter | hbefore
    · exact Bool.false_ne_true (hletter.symm.trans (hletters name (by simp)))
    · exact List.disjoint_of_nodup_append hdistinct hbefore List.mem_cons_self

namespace Equation

variable {limit : Int} {scope : List SymbolName} {lhs rhs : Expr} {settings : Log.Settings}

theorem outcome_normalize_eq_variableLimit_iff {count : Nat} {bound : Int} :
    ((normalize limit lhs rhs scope).run settings).outcome = .error (.variableLimit count bound) ↔
      limit < scope.length ∧ count = scope.length ∧ bound = limit := by
  rw [outcome_normalize_eq_error_iff]
  apply Iff.intro
  · intro h
    cases h with
    | tooMany hmany => exact ⟨hmany, rfl, rfl⟩
  · intro h
    obtain ⟨hmany, rfl, rfl⟩ := h
    exact .tooMany hmany

theorem outcome_normalize_eq_invalidVariables_iff {fault : VariableFault} {name : SymbolName}
    {names : List SymbolName} :
    ((normalize limit lhs rhs scope).run settings).outcome =
        .error (.invalidVariables fault name names) ↔
      scope.length ≤ limit ∧ (∃ before, FirstRefused scope before fault name) ∧ names = scope := by
  rw [outcome_normalize_eq_error_iff]
  apply Iff.intro
  · intro h
    cases h with
    | refused hlimit hrefused => exact ⟨hlimit, ⟨_, hrefused⟩, rfl⟩
  · intro h
    obtain ⟨hlimit, ⟨before, hrefused⟩, rfl⟩ := h
    exact .refused hlimit hrefused

theorem outcome_normalize_eq_unboundSymbol_iff {cause : UnboundSymbol} :
    ((normalize limit lhs rhs scope).run settings).outcome = .error (.unboundSymbol cause) ↔
      Admissible limit scope ∧
        (lhs.symbols ++ rhs.symbols).find? (fun name => name ∉ scope) = some cause.symbol ∧
          cause.scope = scope := by
  rw [outcome_normalize_eq_error_iff]
  apply Iff.intro
  · intro h
    cases h with
    | unbound hadmitted hname => exact ⟨hadmitted, hname, rfl⟩
  · intro h
    obtain ⟨hadmitted, hname, rfl⟩ := h
    exact .unbound hadmitted hname

theorem exists_invalidVariables_iff :
    (∃ fault name names, ((normalize limit lhs rhs scope).run settings).outcome =
        .error (.invalidVariables fault name names)) ↔
      scope.length ≤ limit ∧ ∃ before name after, scope = before ++ name :: after ∧
        (SymbolName.isLetter name = false ∨ name ∈ before) := by
  simp only [outcome_normalize_eq_invalidVariables_iff, ← exists_firstRefused_iff]
  apply Iff.intro
  · intro h
    rcases h with ⟨fault, name, names, hlimit, ⟨before, hrefused⟩, -⟩
    exact ⟨hlimit, before, fault, name, hrefused⟩
  · intro h
    rcases h with ⟨hlimit, before, fault, name, hrefused⟩
    exact ⟨fault, name, scope, hlimit, ⟨before, hrefused⟩, rfl⟩

theorem exists_unboundSymbol_iff :
    (∃ cause, ((normalize limit lhs rhs scope).run settings).outcome =
        .error (.unboundSymbol cause)) ↔
      Admissible limit scope ∧ ∃ symbol ∈ lhs.symbols ++ rhs.symbols, symbol ∉ scope := by
  have hsearch : (∃ symbol ∈ lhs.symbols ++ rhs.symbols, symbol ∉ scope) ↔
      ∃ symbol, (lhs.symbols ++ rhs.symbols).find? (fun name => name ∉ scope) = some symbol := by
    rw [← Option.isSome_iff_exists, List.find?_isSome]
    simp only [decide_eq_true_eq]
  rw [hsearch]
  simp only [outcome_normalize_eq_unboundSymbol_iff]
  apply Iff.intro
  · intro h
    rcases h with ⟨cause, hadmitted, hname, -⟩
    exact ⟨hadmitted, cause.symbol, hname⟩
  · intro h
    rcases h with ⟨hadmitted, symbol, hname⟩
    exact ⟨⟨symbol, scope⟩, hadmitted, hname, rfl⟩

theorem exists_table_iff :
    (∃ table, ((normalize limit lhs rhs scope).run settings).outcome = .ok table) ↔
      Admissible limit scope ∧ ∀ symbol ∈ lhs.symbols ++ rhs.symbols, symbol ∈ scope := by
  simp only [outcome_normalize_eq_ok_iff, List.forall_mem_append, exists_and_left, exists_eq,
    and_true]

/-- More variables than there are letters are refused under any limit. -/
theorem refused_of_length (hlength : 26 < scope.length) :
    (∃ count bound, ((normalize limit lhs rhs scope).run settings).outcome =
        .error (.variableLimit count bound)) ∨
      ∃ fault name names, ((normalize limit lhs rhs scope).run settings).outcome =
        .error (.invalidVariables fault name names) := by
  by_cases hmany : limit < scope.length
  · exact Or.inl ⟨_, _, outcome_normalize_eq_variableLimit_iff.mpr ⟨hmany, rfl, rfl⟩⟩
  · obtain ⟨before, fault, name, hrefused⟩ :
        ∃ before fault name, FirstRefused scope before fault name := by
      by_contra hnone
      obtain ⟨hletters, hdistinct⟩ := not_exists_firstRefused_iff.mp hnone
      exact not_le.mpr hlength (length_le_of_letters hletters hdistinct)
    exact Or.inr ⟨fault, name, scope, outcome_normalize_eq_invalidVariables_iff.mpr
      ⟨not_lt.mp hmany, ⟨before, hrefused⟩, rfl⟩⟩

/-- A factor of zero leaves the symbols of the other factor to be found. -/
theorem symbols_zero_factor {factor : Expr}
    (hzero : lhs = .product (.const false) factor ∨ lhs = .product factor (.const false)) :
    lhs.symbols = factor.symbols := by
  rcases hzero with rfl | rfl
  · rfl
  · simp [Expr.symbols, Expr.occurrences]

/-- An outcome that the arguments of a normalization decide in the order of the checks. -/
structure DecidedInOrder (limit : Int) (lhs rhs : Expr) (scope : List SymbolName)
    (outcome : Except Error Equation) : Prop where
  /-- More variables than the limit are refused, whatever else is the case. -/
  tooMany (count : Nat) (bound : Int) :
    outcome = .error (.variableLimit count bound) ↔
      limit < scope.length ∧ count = scope.length ∧ bound = limit
  /-- Within the limit, a variable is refused that is no letter or stands there before. -/
  refused :
    (∃ fault name names, outcome = .error (.invalidVariables fault name names)) ↔
      scope.length ≤ limit ∧ ∃ before name after, scope = before ++ name :: after ∧
        (SymbolName.isLetter name = false ∨ name ∈ before)
  /-- The first of them is named, with the reason why. -/
  firstRefused (fault : VariableFault) (name : SymbolName) (names : List SymbolName) :
    outcome = .error (.invalidVariables fault name names) ↔
      scope.length ≤ limit ∧ (∃ before, FirstRefused scope before fault name) ∧ names = scope
  /-- Over admitted variables, a symbol is refused that is none of them. -/
  unbound :
    (∃ cause, outcome = .error (.unboundSymbol cause)) ↔
      Admissible limit scope ∧ ∃ symbol ∈ lhs.symbols ++ rhs.symbols, symbol ∉ scope
  /-- The first of them is named, those of the left side before those of the right one. -/
  firstUnbound (cause : UnboundSymbol) :
    outcome = .error (.unboundSymbol cause) ↔
      Admissible limit scope ∧
        (lhs.symbols ++ rhs.symbols).find? (fun name => name ∉ scope) = some cause.symbol ∧
          cause.scope = scope
  /-- Otherwise there is a table. -/
  accepted :
    (∃ table, outcome = .ok table) ↔
      Admissible limit scope ∧ ∀ symbol ∈ lhs.symbols ++ rhs.symbols, symbol ∈ scope
  /-- No limit admits more variables than there are letters. -/
  overAlphabet :
    26 < scope.length →
      (∃ count bound, outcome = .error (.variableLimit count bound)) ∨
        ∃ fault name names, outcome = .error (.invalidVariables fault name names)
  /-- A factor of zero does not keep the other factor from being looked at. -/
  zeroFactor (factor : Expr) (symbol : SymbolName) :
    lhs = .product (.const false) factor ∨ lhs = .product factor (.const false) →
      Admissible limit scope →
        factor.symbols.find? (fun name => name ∉ scope) = some symbol →
          outcome = .error (.unboundSymbol ⟨symbol, scope⟩)
  /-- Over no variables every symbol is refused. -/
  noVariables (symbol : SymbolName) :
    scope = [] → 0 ≤ limit → (lhs.symbols ++ rhs.symbols).head? = some symbol →
      outcome = .error (.unboundSymbol ⟨symbol, []⟩)

/-- Whatever the limit asked for, the sides and the variables are, normalization is refused
for the first condition that holds, and otherwise makes a table. -/
theorem normalization_is_decided_in_order (settings : Log.Settings) (asked : Option Int)
    (lhs rhs : Expr) (scope : List SymbolName) :
    DecidedInOrder (limitInEffect asked) lhs rhs scope
      ((normalize (limitInEffect asked) lhs rhs scope).run settings).outcome where
  tooMany _ _ := outcome_normalize_eq_variableLimit_iff
  refused := exists_invalidVariables_iff
  firstRefused _ _ _ := outcome_normalize_eq_invalidVariables_iff
  unbound := exists_unboundSymbol_iff
  firstUnbound _ := outcome_normalize_eq_unboundSymbol_iff
  accepted := exists_table_iff
  overAlphabet := refused_of_length
  zeroFactor factor symbol hzero hadmitted hsymbol := by
    apply outcome_normalize_eq_unboundSymbol_iff.mpr
    refine ⟨hadmitted, ?_, rfl⟩
    rw [List.find?_append, symbols_zero_factor hzero, hsymbol]
    rfl
  noVariables symbol hscope hlimit hsymbol := by
    subst hscope
    have hadmitted : Admissible (limitInEffect asked) [] :=
      ⟨hlimit, fun _ hname => absurd hname List.not_mem_nil, List.nodup_nil⟩
    apply outcome_normalize_eq_unboundSymbol_iff.mpr
    refine ⟨hadmitted, ?_, rfl⟩
    obtain ⟨rest, hsymbols⟩ := List.head?_eq_some_iff.mp hsymbol
    rw [hsymbols]
    simp

example : ((normalize (limitInEffect none) (.product (.const false) (.sym "q")) (.const false)
    []).run .off).outcome = .error (.unboundSymbol ⟨"q", []⟩) := by cbv

end Equation

end ElectiveCalculus
