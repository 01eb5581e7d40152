/-
# Reading with a log

The reading of an expression as the other operations of the calculus use it: the parser
with its success reported. A text that is refused leaves no entry.
-/

import ElectiveCalculus.Error
import ElectiveCalculus.Log.Logged

namespace ElectiveCalculus

open Log

/-- Reads a whole text as one expression and reports it when it is accepted. -/
def Expr.read (input : Text) : Logged Error Expr := do
  let expr ← Logged.ofExcept ((Expr.parse input).mapError .parse)
  Logged.write .trace .parser fun () => "Parsed '" ++ input ++ "'"
  return expr

end ElectiveCalculus
