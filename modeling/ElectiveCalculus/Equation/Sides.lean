/-
# The two sides of a written equation

An equation is written as two expressions with one equals sign between them. The sides are
cut apart first, and blanks around each are dropped; a blank inside a side stays there and
is refused when the side is read. A missing or a second equals sign is therefore found
before any fault of a side, and is reported in the whole text, whereas a fault of a side
is reported in the trimmed side.
-/

import ElectiveCalculus.Expr.Reading
import ElectiveCalculus.Text.Blank

namespace ElectiveCalculus

open Log

/-- Two sides of an equation, as texts or as expressions. -/
structure Sides (α : Type) where
  lhs : α
  rhs : α
  deriving DecidableEq, Repr

namespace Sides

/-- Cuts a text at its only equals sign. A missing sign is missed at the end of the text,
and a second sign is refused where it stands. -/
def split (input : Text) : Except ParseError (Sides Text) :=
  let left := input.takeWhile (· != CodeUnit.equalsSign)
  match input.dropWhile (· != CodeUnit.equalsSign) with
  | [] => .error ⟨.expectedEqualsSign, input, input.length⟩
  | _ :: right =>
    match right.findIdx? (· == CodeUnit.equalsSign) with
    | none => .ok ⟨Text.trim left, Text.trim right⟩
    | some again => .error ⟨.unexpectedEqualsSign, input, left.length + 1 + again⟩

/-- Reads the left side and then the right side. -/
def read (sides : Sides Text) : Logged Error (Sides Expr) := do
  let lhs ← Expr.read sides.lhs
  let rhs ← Expr.read sides.rhs
  return ⟨lhs, rhs⟩

/-- Reads a whole text as an equation between two expressions. -/
def readEquation (input : Text) : Logged Error (Sides Expr) := do
  let sides ← Logged.ofExcept ((split input).mapError .parse)
  sides.read

end Sides

end ElectiveCalculus
