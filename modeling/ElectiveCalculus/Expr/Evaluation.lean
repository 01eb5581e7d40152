/-
# Values of elective expressions

An expression is evaluated in ordinary arithmetic: a complement is one minus its
argument and a product is multiplication. Nothing keeps a value between zero and one;
that the values of an expression over bits are bits again is a theorem about the bits,
not a rule of evaluation.

Both operands of a product are evaluated, the left one first, and a factor of zero
saves nothing: an unbound symbol is found wherever it stands, and of several the
leftmost is reported.

The arithmetic is a parameter, so the same definition serves tables, which are reckoned
in integers, and values given as floating point numbers.
-/

import ElectiveCalculus.Expr.Basic

namespace ElectiveCalculus

/-- A symbol without a value among the variables that an expression is evaluated over. -/
structure UnboundSymbol where
  symbol : SymbolName
  scope : List SymbolName
  deriving DecidableEq, Repr

/-- An unbound symbol in words. -/
def UnboundSymbol.message (error : UnboundSymbol) : Text :=
  "symbol '" ++ error.symbol ++ "' is not bound by the variables " ++
    Text.bracketed error.scope

namespace Expr

variable {ε R : Type} [OfNat R 0] [OfNat R 1] [Sub R] [Mul R]

/-- The value of an expression where `meaning` says what a symbol is worth, or why it is
worth nothing. -/
def valueIn (meaning : SymbolName → Except ε R) : Expr → Except ε R
  | .sym name => meaning name
  | .const value => .ok (if value then 1 else 0)
  | .not arg => do return 1 - (← arg.valueIn meaning)
  | .product left right => do
    let first ← left.valueIn meaning
    let second ← right.valueIn meaning
    return first * second

/-- The value of an expression when the variables are bound in order to the values. The
first variable of a name counts, and a variable without a value binds nothing. -/
def evaluate (expr : Expr) (scope : List SymbolName) (values : List R) :
    Except UnboundSymbol R :=
  let bindings := scope.zip values
  expr.valueIn fun name =>
    match bindings.lookup name with
    | some value => .ok value
    | none => .error ⟨name, scope⟩

/-- The Boolean reading of an expression: a complement is a negation and a product is a
conjunction. It is what evaluation computes when every symbol is worth a bit. -/
def holds (truth : SymbolName → Bool) : Expr → Bool
  | .sym name => truth name
  | .const value => value
  | .not arg => !arg.holds truth
  | .product left right => left.holds truth && right.holds truth

end Expr

end ElectiveCalculus
