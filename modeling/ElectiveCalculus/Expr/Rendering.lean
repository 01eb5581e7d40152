/-
# Written expressions

The notation has a few fixed units besides the letters. A complement is written between
parentheses as a difference from one, a product by juxtaposition, and nothing else is
ever needed: because only complements carry parentheses, the nesting of a product leaves
no trace in the text.
-/

import ElectiveCalculus.Expr.Basic

namespace ElectiveCalculus

namespace CodeUnit

/-- The unit that opens a complement. -/
def openParen : CodeUnit := 0x28

/-- The unit that closes a complement. -/
def closeParen : CodeUnit := 0x29

/-- The sign of difference inside a complement. -/
def minus : CodeUnit := 0x2D

/-- The digit of the constant that selects nothing. -/
def digitZero : CodeUnit := 0x30

/-- The digit of the constant that selects everything. -/
def digitOne : CodeUnit := 0x31

/-- The sign between the two sides of an equation. -/
def equalsSign : CodeUnit := 0x3D

end CodeUnit

/-- What every complement begins with. -/
def complementOpening : Text := [CodeUnit.openParen, CodeUnit.digitOne, CodeUnit.minus]

namespace Expr

/-- An expression in the written notation. -/
def render : Expr → Text
  | .sym name => name
  | .const value => [if value then CodeUnit.digitOne else CodeUnit.digitZero]
  | .not arg => complementOpening ++ arg.render ++ [CodeUnit.closeParen]
  | .product left right => left.render ++ right.render

/-- A right-nested product is written as its factors one after another. -/
theorem render_ofFactors (factor : Expr) (rest : List Expr) :
    (ofFactors (factor :: rest)).render = ((factor :: rest).map render).flatten := by
  induction rest generalizing factor with
  | nil => simp [ofFactors]
  | cons next rest ih => rw [ofFactors, render, ih next]; rfl

end Expr

end ElectiveCalculus
