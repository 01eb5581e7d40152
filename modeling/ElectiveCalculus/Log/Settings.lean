/-
# Log settings

Settings decide which entries are written: none at all while logging is off, and otherwise
those of a least level whose component is among the selected ones. They are usually read
from three variables of the environment.

A message is given as an action that makes it, and the action is run only for an entry
that is written. Rendering a large table is thus never paid for in vain, and a message
that could not be made could do no harm where nobody asked for it.
-/

import ElectiveCalculus.Log.Entry
import ElectiveCalculus.Text.Blank

namespace ElectiveCalculus.Log

/-- Which entries are written. Components are selected by name, and a name that no
component has selects nothing; without a selection every component is heard. -/
structure Settings where
  enabled : Bool
  level : Level
  components : Option (List Text)
  deriving DecidableEq, Repr

namespace Settings

/-- Nothing is written. -/
def off : Settings := ⟨false, .debug, none⟩

/-- Everything is written. -/
def everything : Settings := ⟨true, .trace, none⟩

/-- The variable that turns logging on when its value is exactly `true`. -/
def enabledVariable : String := "DEBUG_ELECTIVE"

/-- The variable that names the least level. -/
def levelVariable : String := "DEBUG_ELECTIVE_LEVEL"

/-- The variable that lists the selected components between commas. -/
def filterVariable : String := "DEBUG_ELECTIVE_FILTER"

/-- The settings that an environment asks for. A level that is absent or has no known name
is the middle one, and an absent or empty list of components selects all of them. -/
def ofEnvironment (environment : String → Option Text) : Settings where
  enabled := environment enabledVariable == some "true"
  level := ((environment levelVariable).bind Level.ofName?).getD .debug
  components :=
    match environment filterVariable with
    | none => none
    | some [] => none
    | some names => some ((Text.pieces CodeUnit.comma names).map Text.trim)

/-- Whether an entry of this level and component is written. -/
def isEnabled (settings : Settings) (level : Level) (component : Component) : Bool :=
  settings.enabled && settings.level.rank ≤ level.rank &&
    match settings.components with
    | none => true
    | some names => names.contains component.name

variable {m : Type → Type} [Monad m]

/-- The entries to write for one report: a single one, or none when it is not enabled, in
which case its message is never made. -/
def record (settings : Settings) (level : Level) (component : Component)
    (message : Unit → m Text) : m (List Entry) :=
  if settings.isEnabled level component then do
    return [⟨level, component, ← message ()⟩]
  else
    return []

/-- The entries to write for a report on an equation, which is rendered after a heading
and only when the entry is written. -/
def recordEquation (settings : Settings) (level : Level) (component : Component)
    (heading : Text) (equation : Unit → m Text) : m (List Entry) :=
  settings.record level component fun () => do
    return heading ++ ": " ++ (← equation ())

end Settings

end ElectiveCalculus.Log
