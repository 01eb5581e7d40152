/-
# The grammar of written expressions

An expression is a term or a term followed by an expression; a term is a letter, a digit
`0` or `1`, or a complement `(1-e)` around an expression. The grammar is given by its
derivations, which are data: a derivation has the text it derives and the tree it denotes,
so that unambiguity is a statement about derivations of one text and not only about the
trees they denote.

Nothing here scans a text. The module `Expr.Parser` decides which texts have a derivation
by another route, and neither definition refers to the other.
-/

import ElectiveCalculus.Expr.Rendering

namespace ElectiveCalculus.Grammar

mutual

/-- The derivations of terms. -/
inductive Term where
  | letter (unit : CodeUnit) (isLetter : unit.isLetter = true)
  | zero
  | one
  | complement (inside : Phrase)

/-- The derivations of expressions. -/
inductive Phrase where
  | single (term : Term)
  | juxtaposed (term : Term) (rest : Phrase)

end

mutual

/-- The text that the derivation of a term derives. -/
def Term.text : Term → Text
  | .letter unit _ => [unit]
  | .zero => [CodeUnit.digitZero]
  | .one => [CodeUnit.digitOne]
  | .complement inside => complementOpening ++ inside.text ++ [CodeUnit.closeParen]

/-- The text that the derivation of an expression derives. -/
def Phrase.text : Phrase → Text
  | .single term => term.text
  | .juxtaposed term rest => term.text ++ rest.text

end

mutual

/-- The tree that the derivation of a term denotes. -/
def Term.denoted : Term → Expr
  | .letter unit _ => .sym [unit]
  | .zero => .const false
  | .one => .const true
  | .complement inside => .not inside.denoted

/-- The tree that the derivation of an expression denotes; a juxtaposition is a product
nested to the right. -/
def Phrase.denoted : Phrase → Expr
  | .single term => term.denoted
  | .juxtaposed term rest => .product term.denoted rest.denoted

end

/-- A text that the grammar derives, whatever tree it denotes. -/
def Derivable (text : Text) : Prop := ∃ phrase : Phrase, phrase.text = text

/-- A text that the grammar derives as one given expression. -/
def Derives (text : Text) (expr : Expr) : Prop :=
  ∃ phrase : Phrase, phrase.text = text ∧ phrase.denoted = expr

end ElectiveCalculus.Grammar
