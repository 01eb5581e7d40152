/-
# Log entries

Every operation of the calculus can report what it did. An entry says which part of the
calculus reports, how important the report is, and what it says; the time at which a line
is written belongs to whoever writes it and is no part of the entry.
-/

import ElectiveCalculus.Text.Basic

namespace ElectiveCalculus.Log

/-- How important an entry is, from the finest detail to the coarsest summary. -/
inductive Level where
  | trace
  | debug
  | info
  deriving DecidableEq, Inhabited, Repr

namespace Level

/-- Importance as a number, so that settings can ask for a least level. -/
def rank : Level → Nat
  | .trace => 0
  | .debug => 1
  | .info => 2

/-- The name under which a level is written and set. -/
def name : Level → Text
  | .trace => "TRACE"
  | .debug => "DEBUG"
  | .info => "INFO"

/-- The level of a given name, if there is one. -/
def ofName? (name : Text) : Option Level :=
  [trace, debug, info].find? fun level => level.name == name

end Level

/-- The parts of the calculus that report. -/
inductive Component where
  | parser
  | normalizer
  | conjunction
  | elimination
  | syllogism
  deriving DecidableEq, Inhabited, Repr

namespace Component

/-- The name under which a component is written and selected. -/
def name : Component → Text
  | .parser => "PARSER"
  | .normalizer => "NORMALIZER"
  | .conjunction => "CONJUNCTION"
  | .elimination => "ELIMINATION"
  | .syllogism => "SYLLOGISM"

end Component

/-- One report of one component. -/
structure Entry where
  level : Level
  component : Component
  message : Text
  deriving DecidableEq, Repr

/-- The line that shows an entry written at a given time. -/
def Entry.line (entry : Entry) (time : Text) : Text :=
  "[" ++ time ++ "] [" ++ entry.level.name ++ "] [" ++ entry.component.name ++ "] " ++
    entry.message

end ElectiveCalculus.Log
