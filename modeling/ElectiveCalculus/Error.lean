/-
# Errors of the calculus

Every way in which an operation of the calculus can fail is a cause with the data that
explain it. The wording is kept in one place, so that no operation writes a message and no
message is ever read back.
-/

import ElectiveCalculus.Binary64
import ElectiveCalculus.Expr.Evaluation
import ElectiveCalculus.Expr.Parser

namespace ElectiveCalculus

/-- Why a name is refused as a variable of a table. -/
inductive VariableFault where
  | notSymbol
  | repeated
  deriving DecidableEq, Repr

/-- Why an operation of the calculus failed. -/
inductive Error where
  | parse (error : ParseError)
  | unboundSymbol (error : UnboundSymbol)
  | invalidVariables (fault : VariableFault) (name : SymbolName) (scope : List SymbolName)
  | variableLimit (count : Nat) (limit : Int)
  | variableMismatch (left right : List SymbolName)
  | unknownVariable (symbol : SymbolName) (scope : List SymbolName)
  | valueCount (scope : List SymbolName) (given : Nat)
  | unknownForm (name : Text)
  deriving DecidableEq, Repr

/-- A refused variable in words. -/
def VariableFault.description : VariableFault → Text
  | .notSymbol => "is not a symbol"
  | .repeated => "is repeated"

/-- An error in words. -/
def Error.message : Error → Text
  | .parse error => error.message
  | .unboundSymbol error => error.message
  | .invalidVariables fault name scope =>
    "'" ++ name ++ "' " ++ fault.description ++ " in variables " ++ Text.bracketed scope
  | .variableLimit count limit =>
    "cannot normalize over " ++ Text.ofNat count ++ " variables, the limit is " ++
      Binary64.text limit
  | .variableMismatch left right =>
    "cannot conjoin equations over " ++ Text.bracketed left ++ " and " ++ Text.bracketed right
  | .unknownVariable symbol scope =>
    "cannot eliminate '" ++ symbol ++ "' from an equation over " ++ Text.bracketed scope
  | .valueCount scope given =>
    "expected " ++ Text.ofNat scope.length ++ " values for " ++ Text.bracketed scope ++
      ", got " ++ Text.ofNat given
  | .unknownForm name => "Unknown categorical form " ++ name

end ElectiveCalculus
