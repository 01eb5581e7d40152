/-
# Elective expressions

An elective symbol stands for the act of selecting the members of a class. The
expressions built from symbols take complements `(1-e)` and products `ef`, where the
product of two selections selects what both of them select; the constants `0` and `1`
select nothing and everything.

A symbol of the written notation is a single lowercase letter, but trees may be built
over any names: which names are admitted is decided where a name is read or a table is
made, never here.
-/

import ElectiveCalculus.Text.Basic

namespace ElectiveCalculus

/-- The name of an elective symbol. Written expressions use single letters only. -/
abbrev SymbolName := Text

/-- A lowercase letter of the basic Latin alphabet. -/
def CodeUnit.isLetter (unit : CodeUnit) : Bool := 0x61 ≤ unit && unit ≤ 0x7A

/-- A name that the written notation has: exactly one lowercase letter. -/
def SymbolName.isLetter : SymbolName → Bool
  | [unit] => unit.isLetter
  | _ => false

/-- Elective expressions: symbols, the two constants, complements and products. -/
inductive Expr where
  | sym (name : SymbolName)
  | const (value : Bool)
  | not (arg : Expr)
  | product (left right : Expr)
  deriving DecidableEq, Inhabited, Repr

namespace Expr

/-- The symbols of an expression from left to right, as often as they occur. -/
def occurrences : Expr → List SymbolName
  | .sym name => [name]
  | .const _ => []
  | .not arg => arg.occurrences
  | .product left right => left.occurrences ++ right.occurrences

/-- The distinct symbols of an expression, in the order of their first occurrence. -/
def symbols (expr : Expr) : List SymbolName := expr.occurrences.eraseDups

/-- The product of several factors, nested to the right as the notation reads a
juxtaposition. One factor is its own product, and no factor at all gives the unit. -/
def ofFactors : List Expr → Expr
  | [] => .const true
  | [factor] => factor
  | factor :: next :: rest => .product factor (ofFactors (next :: rest))

/-- Whether two expressions are the same tree, which is found out node by node: nodes of one
kind with the same name, the same value or the same parts. -/
def equal : Expr → Expr → Bool
  | .sym name, .sym other => name == other
  | .const value, .const other => value == other
  | .not arg, .not other => arg.equal other
  | .product left right, .product left' right' => left.equal left' && right.equal right'
  | _, _ => false

/-- Comparing expressions decides whether they are equal. -/
theorem equal_iff {first second : Expr} : first.equal second = true ↔ first = second := by
  induction first generalizing second with
  | sym name => cases second <;> simp [equal]
  | const value => cases second <;> simp [equal]
  | not arg ih => cases second <;> simp [equal, ih]
  | product left right ihLeft ihRight => cases second <;> simp [equal, ihLeft, ihRight]

/-- A constant has no symbols. -/
@[simp] theorem symbols_const (value : Bool) : (Expr.const value).symbols = [] := rfl

/-- A symbol is the only symbol of itself. -/
@[simp] theorem symbols_sym (name : SymbolName) : (Expr.sym name).symbols = [name] := by
  simp [symbols, occurrences, List.eraseDups_cons]

/-- A complement has the symbols of what it complements. -/
@[simp] theorem symbols_not (arg : Expr) : (Expr.not arg).symbols = arg.symbols := rfl

end Expr

end ElectiveCalculus
