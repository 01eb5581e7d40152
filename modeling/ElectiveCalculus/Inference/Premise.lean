/-
# Premises

A premise is an equation whose two sides are still texts; they are read when the premise is
used. It is written out as one equation, or made from a universal categorical proposition:
"all S are P" selects the same by S as by S and P together, and "no S are P" selects nothing
by S and P together. Particular propositions need a further symbol and are written out.
-/

import ElectiveCalculus.Equation.Sides

namespace ElectiveCalculus

/-- An equation with its sides still unread. -/
abbrev Premise := Sides Text

/-- The universal categorical forms. -/
inductive CategoricalForm where
  /-- All S are P, written `S = SP`. -/
  | universalAffirmative
  /-- No S are P, written `SP = 0`. -/
  | universalNegative
  deriving DecidableEq, Repr

namespace CategoricalForm

/-- The traditional letter of a form. -/
def letter : CategoricalForm → Text
  | .universalAffirmative => "A"
  | .universalNegative => "E"

/-- The form with a given letter. The particular forms have letters too, but none here. -/
def ofLetter (letter : Text) : Except Error CategoricalForm :=
  match [universalAffirmative, universalNegative].find? fun form => form.letter == letter with
  | some form => .ok form
  | none => .error (.unknownForm letter)

/-- The premise of a form for a subject and a predicate, whose texts are written side by
side. -/
def premise (subject predicate : Text) : CategoricalForm → Premise
  | .universalAffirmative => ⟨subject, subject ++ predicate⟩
  | .universalNegative => ⟨subject ++ predicate, [CodeUnit.digitZero]⟩

end CategoricalForm

end ElectiveCalculus
