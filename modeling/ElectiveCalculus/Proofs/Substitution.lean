/-
# What substitution means

An expression in which other expressions have been put for its symbols reads a valuation
as the expression itself reads the valuation that gives each symbol the value of what was
put for it. Putting an expression for one symbol is then changing the valuation at that
symbol, which is also how elimination changes it.

Arithmetic is no different: what was put for the symbols is evaluated first, and the
expression over the results. Both ways ask for the symbols in the same order, so that an
unbound symbol is found behind the same one.

The symbols of the result are those of what was put in, in the order in which the symbols
stood.
-/

import ElectiveCalculus.Expr.Replacement
import ElectiveCalculus.Proofs.Evaluation
import Mathlib

namespace ElectiveCalculus.Expr

theorem holds_substitute (image : SymbolName → Expr) (expr : Expr) (valuation : Valuation) :
    (expr.substitute image).holds valuation =
      expr.holds fun name => (image name).holds valuation := by
  induction expr with
  | sym name => rfl
  | const value => rfl
  | not arg ih => rw [substitute_not, holds, holds, ih]
  | product left right ihLeft ihRight =>
      rw [substitute_product, holds, holds, ihLeft, ihRight]

theorem occurrences_substitute (image : SymbolName → Expr) (expr : Expr) :
    (expr.substitute image).occurrences =
      expr.occurrences.flatMap fun name => (image name).occurrences := by
  induction expr with
  | sym name => rw [substitute_sym, occurrences, List.flatMap_singleton]
  | const value => rfl
  | not arg ih => rw [substitute_not, occurrences, occurrences, ih]
  | product left right ihLeft ihRight =>
      rw [substitute_product, occurrences, occurrences, ihLeft, ihRight, List.flatMap_append]

/-- One substitution after another is the substitution of what the second one makes of the
images of the first. -/
theorem substitute_substitute (first second : SymbolName → Expr) (expr : Expr) :
    (expr.substitute first).substitute second =
      expr.substitute fun name => (first name).substitute second := by
  induction expr with
  | sym name => rfl
  | const value => rfl
  | not arg ih => rw [substitute_not, substitute_not, substitute_not, ih]
  | product left right ihLeft ihRight =>
      rw [substitute_product, substitute_product, substitute_product, ihLeft, ihRight]

/-- Of a symbol that is met again, nothing new is put in. -/
theorem symbols_substitute (image : SymbolName → Expr) (expr : Expr) :
    (expr.substitute image).symbols =
      (expr.symbols.flatMap fun name => (image name).symbols).eraseDups := by
  rw [symbols, occurrences_substitute, eraseDups_flatMap]
  rfl

/-! ## Values -/

section Values

variable {R : Type} [OfNat R 0] [OfNat R 1] [Sub R] [Mul R]
variable {image : SymbolName → Expr} {expr : Expr} {scope : List SymbolName} {values : List R}

/-- A symbol is worth what the expression put for it is worth. -/
theorem valueIn_substitute {ε : Type} (image : SymbolName → Expr) (expr : Expr)
    (meaning : SymbolName → Except ε R) :
    (expr.substitute image).valueIn meaning =
      expr.valueIn fun name => (image name).valueIn meaning := by
  induction expr with
  | sym name => rfl
  | const value => rfl
  | not arg ih => rw [substitute_not, valueIn, valueIn, ih]
  | product left right ihLeft ihRight =>
      rw [substitute_product, valueIn, valueIn, ihLeft, ihRight]

theorem exists_evaluate_substitute {worths : List R}
    (hworths : List.Forall₂ (fun name worth => (image name).evaluate scope values = .ok worth)
      expr.symbols worths) :
    ∃ result, (expr.substitute image).evaluate scope values = .ok result ∧
      expr.evaluate expr.symbols worths = .ok result := by
  have hagree : (expr.substitute image).evaluate scope values =
      expr.evaluate expr.symbols worths := by
    rw [evaluate_eq_valueIn, valueIn_substitute, evaluate_eq_valueIn]
    apply valueIn_congr
    intro name hname
    obtain ⟨value, hbound, hvalue⟩ := exists_isBoundTo_of_forall₂ hworths (mem_symbols.mpr hname)
    exact hvalue.trans (worth_eq_ok_iff.mpr hbound).symm
  obtain ⟨result, hresult⟩ := exists_evaluate_eq_ok_iff.mpr fun name hname =>
    (exists_isBoundTo_of_forall₂ hworths hname).imp fun _ => And.left
  exact ⟨result, hagree.trans hresult, hresult⟩

theorem evaluate_substitute_eq_error_iff {error : UnboundSymbol} :
    (expr.substitute image).evaluate scope values = .error error ↔
      ∃ before name after, expr.symbols = before ++ name :: after ∧
        (∀ earlier ∈ before, ∃ worth, (image earlier).evaluate scope values = .ok worth) ∧
          (image name).evaluate scope values = .error error := by
  rw [evaluate_eq_valueIn, valueIn_substitute, valueIn_eq_error_iff_mapM_symbols,
    mapM_eq_error_iff]
  rfl

end Values

/-- Evaluating what was substituted into is evaluating over the values of what was put in: if
all of these have a value, and otherwise with the error of the first that has none. The
symbols are those of what was put in, without repetitions, and substitutions can be put
together. -/
theorem substitution_is_evaluated_by_parts {R : Type} [OfNat R 0] [OfNat R 1] [Sub R] [Mul R]
    (image : SymbolName → Expr) (expr : Expr) (scope : List SymbolName) (values : List R) :
    (∀ worths : List R,
        List.Forall₂ (fun name worth => (image name).evaluate scope values = .ok worth)
          expr.symbols worths →
        ∃ result, (expr.substitute image).evaluate scope values = .ok result ∧
          expr.evaluate expr.symbols worths = .ok result) ∧
      (∀ error, (expr.substitute image).evaluate scope values = .error error ↔
        ∃ before name after, expr.symbols = before ++ name :: after ∧
          (∀ earlier ∈ before, ∃ worth, (image earlier).evaluate scope values = .ok worth) ∧
            (image name).evaluate scope values = .error error) ∧
      (expr.substitute image).symbols =
        (expr.symbols.flatMap fun name => (image name).symbols).eraseDups ∧
      ∀ second : SymbolName → Expr,
        (expr.substitute image).substitute second =
          expr.substitute fun name => (image name).substitute second :=
  ⟨fun _ => exists_evaluate_substitute, fun _ => evaluate_substitute_eq_error_iff,
    symbols_substitute image expr, fun second => substitute_substitute image second expr⟩

/-- Here `x` becomes `(1-y)` and `y` becomes `xx`. With values for both, the product is that
of the values of these. Without a value for `x`, the first image is evaluated and the second
one fails. -/
theorem substitution_is_evaluated_by_parts_exchange :
    (∃ result,
        ((Expr.product (.sym "x") (.product (.sym "y") (.sym "x"))).substitute fun name =>
          if name = "x" then .not (.sym "y") else .product (.sym "x") (.sym "x")).evaluate
            ["x", "y"] [(2 : Int), 3] = .ok result ∧
          (Expr.product (.sym "x") (.product (.sym "y") (.sym "x"))).evaluate
            ["x", "y"] [(-2 : Int), 4] = .ok result) ∧
      ((Expr.product (.sym "x") (.product (.sym "y") (.sym "x"))).substitute fun name =>
        if name = "x" then .not (.sym "y") else .product (.sym "x") (.sym "x")).evaluate
          ["y"] [(3 : Int)] = .error ⟨"x", ["y"]⟩ := by
  have hsymbols : (Expr.product (.sym "x") (.product (.sym "y") (.sym "x"))).symbols =
      [("x" : SymbolName), "y"] := by decide
  apply And.intro
  · rw [← hsymbols]
    apply (substitution_is_evaluated_by_parts _ _ _ _).1
    rw [hsymbols]
    exact .cons rfl (.cons rfl .nil)
  · apply ((substitution_is_evaluated_by_parts _ _ _ _).2.1 _).mpr
    refine ⟨["x"], "y", [], hsymbols, ?_, rfl⟩
    intro earlier hearlier
    obtain rfl := List.mem_singleton.mp hearlier
    exact ⟨-2, rfl⟩

/-! ## One symbol -/

variable {symbol : SymbolName}

/-- Putting an expression for a symbol gives the symbol the value of the expression. -/
theorem holds_substituteSymbol (image expr : Expr) (valuation : Valuation) :
    (substituteSymbol symbol image expr).holds valuation =
      expr.holds (Function.update valuation symbol (image.holds valuation)) := by
  rw [substituteSymbol, holds_substitute]
  congr 1
  funext other
  by_cases hother : other = symbol
  · rw [if_pos hother, hother, Function.update_self]
  · rw [if_neg hother, Function.update_of_ne hother, holds]

/-- A symbol that does not occur may be given any bit. -/
theorem holds_update_of_not_mem {expr : Expr} (hsymbol : symbol ∉ expr.symbols)
    (valuation : Valuation) (bit : Bool) :
    expr.holds (Function.update valuation symbol bit) = expr.holds valuation := by
  apply holds_congr
  intro name hname
  have hne : name ≠ symbol := fun heq => hsymbol (mem_symbols.mpr (heq ▸ hname))
  rw [Function.update_of_ne hne]

/-- An expression without a symbol, put for that symbol, leaves nothing of it. -/
theorem mem_filter_of_mem_substituteSymbol {scope : List SymbolName} {image expr : Expr}
    (hexpr : ∀ name ∈ expr.symbols, name ∈ scope) (himage : ∀ name ∈ image.symbols, name ∈ scope)
    (hsymbol : symbol ∉ image.symbols) :
    ∀ name ∈ (substituteSymbol symbol image expr).symbols, name ∈ scope.filter (· != symbol) := by
  intro name hname
  rw [mem_symbols, substituteSymbol, occurrences_substitute, List.mem_flatMap] at hname
  obtain ⟨origin, horigin, hname⟩ := hname
  rw [List.mem_filter, bne_iff_ne]
  by_cases hreplaced : origin = symbol
  · rw [if_pos hreplaced] at hname
    have hmem := mem_symbols.mpr hname
    exact ⟨himage name hmem, fun heq => hsymbol (heq ▸ hmem)⟩
  · rw [if_neg hreplaced] at hname
    obtain rfl := List.mem_singleton.mp hname
    exact ⟨hexpr name (mem_symbols.mpr horigin), hreplaced⟩

end ElectiveCalculus.Expr
