/-
# Drawing a conclusion

The conclusion of premises is what their conjunction says once the middle terms are
eliminated. The premises are read and normalized one after another over one list of
variables, then conjoined from the left, and then the symbols are eliminated in the order
given. The first step that fails ends the inference.
-/

import ElectiveCalculus.Equation.Conjunction
import ElectiveCalculus.Equation.Elimination
import ElectiveCalculus.Equation.Normal
import ElectiveCalculus.Inference.Premise

namespace ElectiveCalculus

open Log

/-- A conclusion with what it was drawn from. -/
structure Inference where
  /-- The table of each premise over the full list of variables. -/
  premises : List Equation
  /-- What all premises assert together. -/
  combined : Equation
  /-- What is left of that when the eliminated symbols are gone. -/
  conclusion : Equation
  /-- The rendered conclusion. -/
  text : Text
  deriving DecidableEq, Repr

/-- Reads the sides of a premise and reduces it to its table over the variables. -/
def Premise.normalize (limit : Int) (scope : List SymbolName) (premise : Premise) :
    Logged Error Equation := do
  let sides ← premise.read
  Equation.normalize limit sides.lhs sides.rhs scope

/-- Draws the conclusion of premises over variables by eliminating symbols in order. -/
def Inference.draw (limit : Int) (premises : List Premise)
    (scope eliminated : List SymbolName) : Logged Error Inference := do
  let normalized ← premises.mapM (Premise.normalize limit scope)
  let combined ← Equation.conjoinAll normalized
  let conclusion ← combined.eliminateAll eliminated
  let text := conclusion.render
  Logged.write .info .syllogism fun () =>
    "Inferred from " ++ Text.ofNat premises.length ++ " premises, eliminating " ++
      Text.bracketed eliminated ++ ": " ++ text
  return ⟨normalized, combined, conclusion, text⟩

end ElectiveCalculus
