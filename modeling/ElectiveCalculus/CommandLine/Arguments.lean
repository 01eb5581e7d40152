/-
# Command line arguments

After the command come positional arguments and options, in any order. An option takes the
argument behind it as its value, whatever that is, even one that looks like an option; the
value is a list between commas, of which blanks at the ends and empty pieces are dropped. Of
an option given twice the last value counts.
-/

import ElectiveCalculus.Text.Blank

namespace ElectiveCalculus.CommandLine

/-- The options that take a value. -/
inductive ValuedOption where
  | scope
  | eliminate
  deriving DecidableEq, Repr

namespace ValuedOption

/-- An option as it is written. -/
def spelling : ValuedOption → Text
  | .scope => "--vars"
  | .eliminate => "--eliminate"

/-- The option that an argument spells, if it spells one. -/
def ofSpelling? (argument : Text) : Option ValuedOption :=
  [scope, eliminate].find? fun option => option.spelling == argument

end ValuedOption

/-- What stands behind a command: the positional arguments in order, and the value of each
option that was given. -/
structure Arguments where
  positional : List Text
  scope : Option (List Text)
  eliminated : Option (List Text)
  deriving DecidableEq, Repr

namespace Arguments

/-- No argument. -/
def empty : Arguments := ⟨[], none, none⟩

/-- The names in the value of an option. -/
def names (value : Text) : List Text :=
  ((Text.pieces CodeUnit.comma value).map Text.trim).filter fun name => !name.isEmpty

/-- The arguments with one more positional argument behind them. -/
def addPositional (arguments : Arguments) (argument : Text) : Arguments :=
  ⟨arguments.positional ++ [argument], arguments.scope, arguments.eliminated⟩

/-- The arguments with a value for an option, in the place of an earlier one. -/
def setOption (arguments : Arguments) (value : List Text) : ValuedOption → Arguments
  | .scope => ⟨arguments.positional, some value, arguments.eliminated⟩
  | .eliminate => ⟨arguments.positional, arguments.scope, some value⟩

/-- Reads arguments behind those already read. The only fault is an option at the very end,
without a value; it is the option returned as the error. -/
def readOnto (read : Arguments) : List Text → Except ValuedOption Arguments
  | [] => .ok read
  | argument :: rest =>
    match ValuedOption.ofSpelling? argument with
    | none => readOnto (read.addPositional argument) rest
    | some option =>
      match rest with
      | [] => .error option
      | value :: others => readOnto (read.setOption (names value) option) others

/-- Reads everything that stands behind a command. -/
def read (arguments : List Text) : Except ValuedOption Arguments := readOnto empty arguments

end Arguments

end ElectiveCalculus.CommandLine
