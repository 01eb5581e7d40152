/-
# Values over bits

Evaluation reckons in integers and keeps no value between zero and one. Where
every symbol is worth a bit, the value is a bit all the same: one minus a bit is
its negation and the product of two is their conjunction, so the value is the
Boolean reading of the expression. Evaluation succeeds there exactly when the
scope has all symbols of the expression, and otherwise reports the first of them
that the scope lacks.
-/

import ElectiveCalculus.Equation.Normal
import ElectiveCalculus.Equation.Sides
import ElectiveCalculus.Proofs.Outcomes
import ElectiveCalculus.Proofs.Repetitions
import ElectiveCalculus.Proofs.Valuation
import Mathlib

namespace ElectiveCalculus

/-- Both sides have a value under an assignment to the variables of a scope, and it is
the same value. -/
def Sides.SatisfiedBy (sides : Sides Expr) (scope : List SymbolName)
    (assignment : Assignment) : Prop :=
  ∃ value : Int, sides.lhs.evaluate scope (Equation.bitValues assignment) = .ok value ∧
    sides.rhs.evaluate scope (Equation.bitValues assignment) = .ok value

/-! ## Bindings -/

section Bindings

variable {R : Type} {scope : List SymbolName} {values : List R} {name : SymbolName}

/-- A name has no value where so many values are given to the variables of a scope in order:
it is no variable, or the first variable of that name stands behind the last value. -/
def IsUnbound (scope : List SymbolName) (given : Nat) (name : SymbolName) : Prop :=
  name ∉ scope ∨ given ≤ scope.idxOf name

instance (scope : List SymbolName) (given : Nat) (name : SymbolName) :
    Decidable (IsUnbound scope given name) :=
  inferInstanceAs (Decidable (_ ∨ _))

/-- The first variable of a name has a value. -/
def IsBoundTo (scope : List SymbolName) (values : List R) (name : SymbolName) (value : R) :
    Prop :=
  name ∈ scope ∧ values[scope.idxOf name]? = some value

/-- What a name is worth where the variables of a scope are bound in order to values. -/
def worth (scope : List SymbolName) (values : List R) (name : SymbolName) :
    Except UnboundSymbol R :=
  match (scope.zip values).lookup name with
  | some value => .ok value
  | none => .error ⟨name, scope⟩

theorem worth_eq_ok_iff {value : R} :
    worth scope values name = .ok value ↔ IsBoundTo scope values name value := by
  rw [worth, lookup_zip, IsBoundTo]
  by_cases hname : name ∈ scope
  · rw [if_pos hname, and_iff_right hname]
    cases values[scope.idxOf name]? <;> simp
  · simp [hname]

theorem worth_eq_error_iff {error : UnboundSymbol} :
    worth scope values name = .error error ↔
      IsUnbound scope values.length name ∧ error = ⟨name, scope⟩ := by
  rw [worth, lookup_zip, IsUnbound, ← List.getElem?_eq_none_iff]
  by_cases hname : name ∈ scope
  · rw [if_pos hname]
    cases values[scope.idxOf name]? <;> simp [hname, eq_comm]
  · simp [hname, eq_comm]

theorem exists_worth_eq_error_iff :
    (∃ error, worth scope values name = .error error) ↔ IsUnbound scope values.length name := by
  simp only [worth_eq_error_iff, exists_and_left, exists_eq, and_true]

theorem not_isUnbound_iff :
    ¬ IsUnbound scope values.length name ↔ ∃ value, IsBoundTo scope values name value := by
  simp only [← exists_worth_eq_error_iff, ← worth_eq_ok_iff, exists_eq_ok_iff, not_exists, ne_eq]

/-- Where the values are given one for each variable, a variable is bound to a value that
was given for it. -/
theorem exists_isBoundTo_of_forall₂ {suits : SymbolName → R → Prop}
    (hsuits : List.Forall₂ suits scope values) {name : SymbolName} (hname : name ∈ scope) :
    ∃ value, IsBoundTo scope values name value ∧ suits name value := by
  have hindex : scope.idxOf name < scope.length := List.idxOf_lt_length_iff.mpr hname
  have hgiven : scope.idxOf name < values.length := hsuits.length_eq ▸ hindex
  refine ⟨values[scope.idxOf name], ⟨hname, List.getElem?_eq_getElem hgiven⟩, ?_⟩
  have hvalue := hsuits.get hindex hgiven
  rwa [List.get_eq_getElem, List.get_eq_getElem, List.getElem_idxOf hindex] at hvalue

end Bindings

namespace Expr

variable {ε : Type} {meaning : SymbolName → Except ε Int}

/-- A value is found only where every symbol has one, because nothing is skipped. -/
theorem exists_meaning_of_valueIn {expr : Expr} {value : Int}
    (hvalue : expr.valueIn meaning = .ok value) :
    ∀ name ∈ expr.occurrences, ∃ worth, meaning name = .ok worth := by
  induction expr generalizing value with
  | sym name =>
      intro other hother
      obtain rfl := List.mem_singleton.mp hother
      exact ⟨value, hvalue⟩
  | const bit => exact fun name hname => absurd hname List.not_mem_nil
  | not arg ih =>
      obtain ⟨inner, hinner, -⟩ := bind_eq_ok_iff.mp hvalue
      exact ih hinner
  | product left right ihLeft ihRight =>
      obtain ⟨first, hfirst, hrest⟩ := bind_eq_ok_iff.mp hvalue
      obtain ⟨second, hsecond, -⟩ := bind_eq_ok_iff.mp hrest
      intro name hname
      rcases List.mem_append.mp hname with hleft | hright
      · exact ihLeft hfirst name hleft
      · exact ihRight hsecond name hright

/-- Where every symbol is worth a bit, an expression is worth its Boolean reading. -/
theorem valueIn_of_bits {valuation : Valuation} {expr : Expr}
    (hbits : ∀ name ∈ expr.occurrences, meaning name = .ok (if valuation name then 1 else 0)) :
    expr.valueIn meaning = .ok (if expr.holds valuation then 1 else 0) := by
  induction expr with
  | sym name => exact hbits name (List.mem_singleton.mpr rfl)
  | const value => rfl
  | not arg ih =>
      rw [valueIn, ih hbits, holds]
      cases arg.holds valuation <;> rfl
  | product left right ihLeft ihRight =>
      have hleft := ihLeft fun name hname => hbits name (List.mem_append_left _ hname)
      have hright := ihRight fun name hname => hbits name (List.mem_append_right _ hname)
      rw [valueIn, hleft, hright, holds]
      cases left.holds valuation <;> cases right.holds valuation <;> rfl

/-- The value of an expression depends on the worths of its symbols alone. -/
theorem valueIn_congr {R : Type} [OfNat R 0] [OfNat R 1] [Sub R] [Mul R]
    {first second : SymbolName → Except ε R} {expr : Expr}
    (hagree : ∀ name ∈ expr.occurrences, first name = second name) :
    expr.valueIn first = expr.valueIn second := by
  induction expr with
  | sym name => exact hagree name (List.mem_singleton.mpr rfl)
  | const value => rfl
  | not arg ih => rw [valueIn, valueIn, ih hagree]
  | product left right ihLeft ihRight =>
      rw [valueIn, valueIn, ihLeft fun name hname => hagree name (List.mem_append_left _ hname),
        ihRight fun name hname => hagree name (List.mem_append_right _ hname)]

/-- The Boolean reading depends on the symbols of the expression alone. -/
theorem holds_congr {first second : Valuation} {expr : Expr}
    (hagree : ∀ name ∈ expr.occurrences, first name = second name) :
    expr.holds first = expr.holds second := by
  induction expr with
  | sym name => exact hagree name (List.mem_singleton.mpr rfl)
  | const value => rfl
  | not arg ih => rw [holds, holds, ih hagree]
  | product left right ihLeft ihRight =>
      rw [holds, holds, ihLeft fun name hname => hagree name (List.mem_append_left _ hname),
        ihRight fun name hname => hagree name (List.mem_append_right _ hname)]

theorem mem_symbols {expr : Expr} {name : SymbolName} :
    name ∈ expr.symbols ↔ name ∈ expr.occurrences :=
  List.mem_eraseDups

theorem mem_symbols_product {left right : Expr} {name : SymbolName} :
    name ∈ (Expr.product left right).symbols ↔ name ∈ left.symbols ∨ name ∈ right.symbols := by
  rw [mem_symbols, mem_symbols, mem_symbols, occurrences, List.mem_append]

variable {scope : List SymbolName}

theorem evaluate_eq_valueIn {R : Type} [OfNat R 0] [OfNat R 1] [Sub R] [Mul R] (expr : Expr)
    (scope : List SymbolName) (values : List R) :
    expr.evaluate scope values = expr.valueIn (worth scope values) :=
  rfl

theorem mem_scope_of_evaluate {expr : Expr} {values : List Int} {value : Int}
    (hvalue : expr.evaluate scope values = .ok value) : ∀ name ∈ expr.symbols, name ∈ scope := by
  intro name hname
  by_contra houtside
  obtain ⟨worth, hworth⟩ := exists_meaning_of_valueIn hvalue name (mem_symbols.mp hname)
  rw [lookup_zip_of_not_mem values houtside] at hworth
  cases hworth

/-- Over bits for the variables, a variable is worth its bit and no other symbol is worth
anything. -/
theorem evaluate_map_valuation (expr : Expr) (valuation : Valuation) :
    expr.evaluate scope (Equation.bitValues (scope.map valuation)) =
      expr.valueIn fun name =>
        if name ∈ scope then .ok (if valuation name then 1 else 0)
        else .error ⟨name, scope⟩ := by
  rw [evaluate]
  congr 1
  funext name
  by_cases hname : name ∈ scope
  · rw [if_pos hname, Equation.bitValues, List.map_map, lookup_zip_map_of_mem _ hname]
    rfl
  · rw [if_neg hname, lookup_zip_of_not_mem _ hname]

/-- Over a scope with all its symbols, an expression is worth its Boolean reading. -/
theorem evaluate_bitValues {expr : Expr} (hscope : ∀ name ∈ expr.symbols, name ∈ scope)
    (valuation : Valuation) :
    expr.evaluate scope (Equation.bitValues (scope.map valuation)) =
      .ok (if expr.holds valuation then 1 else 0) := by
  rw [evaluate_map_valuation]
  apply valueIn_of_bits
  intro name hname
  rw [if_pos (hscope name (mem_symbols.mpr hname))]

/-! ## Unbound symbols -/

/-- Evaluation asks for the symbols from left to right and for all of them, so it fails as
asking for them one after another does. -/
theorem valueIn_eq_error_iff_mapM {R : Type} [OfNat R 0] [OfNat R 1] [Sub R] [Mul R]
    {meaning : SymbolName → Except ε R} {expr : Expr} {error : ε} :
    expr.valueIn meaning = .error error ↔ expr.occurrences.mapM meaning = .error error := by
  induction expr generalizing error with
  | sym name =>
      rw [occurrences, List.mapM_cons, valueIn]
      cases meaning name <;> simp [bind, Except.bind, pure, Except.pure]
  | const value => simp [valueIn, occurrences, pure, Except.pure]
  | not arg ih =>
      rw [valueIn, occurrences, ← ih]
      cases arg.valueIn meaning <;> simp [bind, Except.bind, pure, Except.pure]
  | product left right ihLeft ihRight =>
      rw [valueIn, occurrences, List.mapM_append]
      refine combine_eq_error_iff.trans (Iff.trans ?_ combine_eq_error_iff.symm)
      simp only [ihLeft, ihRight, exists_eq_ok_iff, ne_eq]

/-- It is enough to ask for every symbol once, at its first occurrence. -/
theorem valueIn_eq_error_iff_mapM_symbols {R : Type} [OfNat R 0] [OfNat R 1] [Sub R] [Mul R]
    {meaning : SymbolName → Except ε R} {expr : Expr} {error : ε} :
    expr.valueIn meaning = .error error ↔ expr.symbols.mapM meaning = .error error := by
  rw [valueIn_eq_error_iff_mapM, mapM_eq_error_iff_find?, mapM_eq_error_iff_find?, symbols,
    find?_eraseDups]

section Values

variable {R : Type} [OfNat R 0] [OfNat R 1] [Sub R] [Mul R] {expr : Expr} {values : List R}

/-- Evaluation reports the first of the symbols that is unbound. -/
theorem evaluate_eq_error_iff_unbound {error : UnboundSymbol} :
    expr.evaluate scope values = .error error ↔
      ∃ name, expr.symbols.find? (fun name => IsUnbound scope values.length name) = some name ∧
        error = ⟨name, scope⟩ := by
  have hunbound (name : SymbolName) :
      (!(worth scope values name).isOk) = decide (IsUnbound scope values.length name) := by
    rw [Bool.eq_iff_iff, decide_eq_true_iff, ← exists_worth_eq_error_iff]
    cases worth scope values name <;> simp [Except.isOk, Except.toBool]
  rw [evaluate_eq_valueIn, valueIn_eq_error_iff_mapM_symbols, mapM_eq_error_iff_find?]
  simp only [hunbound, worth_eq_error_iff]
  apply exists_congr
  intro name
  apply and_congr_right
  intro hfound
  exact and_iff_right (by simpa using List.find?_some hfound)

theorem exists_evaluate_eq_error_iff :
    (∃ error, expr.evaluate scope values = .error error) ↔
      ∃ name ∈ expr.symbols, IsUnbound scope values.length name := by
  simp only [evaluate_eq_error_iff_unbound]
  rw [exists_comm]
  simp only [exists_and_left, exists_eq, and_true, ← Option.isSome_iff_exists, List.find?_isSome,
    decide_eq_true_eq]

theorem exists_evaluate_eq_ok_iff :
    (∃ result, expr.evaluate scope values = .ok result) ↔
      ∀ name ∈ expr.symbols, ∃ value, IsBoundTo scope values name value := by
  simp only [exists_eq_ok_iff, ← not_isUnbound_iff]
  rw [← not_exists, exists_evaluate_eq_error_iff]
  simp only [not_exists, not_and]

end Values

/-- Over bits for the variables, evaluation reports the first symbol that is no variable. -/
theorem evaluate_eq_error_iff {expr : Expr} (valuation : Valuation) {error : UnboundSymbol} :
    expr.evaluate scope (Equation.bitValues (scope.map valuation)) = .error error ↔
      ∃ name, expr.symbols.find? (fun name => name ∉ scope) = some name ∧
        error = ⟨name, scope⟩ := by
  have hwidth : (Equation.bitValues (scope.map valuation)).length = scope.length := by
    rw [Equation.bitValues, List.length_map, List.length_map]
  have hunbound (name : SymbolName) : IsUnbound scope scope.length name ↔ name ∉ scope := by
    rw [IsUnbound, ← not_lt, List.idxOf_lt_length_iff, or_self]
  simp only [evaluate_eq_error_iff_unbound, hwidth, hunbound]

end Expr

/-- An equation between expressions is satisfied where their Boolean readings agree. -/
theorem Sides.satisfiedBy_iff {scope : List SymbolName} {lhs rhs : Expr}
    (hlhs : ∀ name ∈ lhs.symbols, name ∈ scope) (hrhs : ∀ name ∈ rhs.symbols, name ∈ scope)
    (valuation : Valuation) :
    Sides.SatisfiedBy ⟨lhs, rhs⟩ scope (scope.map valuation) ↔
      lhs.holds valuation = rhs.holds valuation := by
  simp only [Sides.SatisfiedBy, Expr.evaluate_bitValues hlhs, Expr.evaluate_bitValues hrhs]
  cases lhs.holds valuation <;> cases rhs.holds valuation <;> simp

end ElectiveCalculus
