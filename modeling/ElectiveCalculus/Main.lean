/-
# Entry point

Reads the arguments and the environment, runs the program and prints what it reports. Log
lines go to the standard output, each with the time at which it is written.
-/

import ElectiveCalculus.CommandLine.Program
import Std.Time.Format

namespace ElectiveCalculus

open Log

/-- The present time as log lines show it. -/
def timeNow : IO Text := do
  let now ← Std.Time.Timestamp.now
  return (Std.Time.DateTime.ofTimestampWithZone now .UTC).format "uuuu-MM-dd'T'HH:mm:ss.SSS'Z'"

/-- The log settings that the environment of the process asks for. -/
def settingsNow : IO Settings := do
  let enabled ← IO.getEnv Settings.enabledVariable
  let level ← IO.getEnv Settings.levelVariable
  let filter ← IO.getEnv Settings.filterVariable
  return Settings.ofEnvironment fun name =>
    if name == Settings.enabledVariable then enabled.map Text.ofString
    else if name == Settings.levelVariable then level.map Text.ofString
    else filter.map Text.ofString

end ElectiveCalculus

open ElectiveCalculus in
/-- Runs the program and ends with the code it reports. -/
def main (arguments : List String) : IO UInt32 := do
  let (log, report) := CommandLine.run (arguments.map Text.ofString) (← settingsNow)
  for entry in log do
    IO.println (Text.toString (entry.line (← timeNow)))
  for (channel, text) in report.lines do
    match channel with
    | .output => IO.println (Text.toString text)
    | .diagnosis => IO.eprintln (Text.toString text)
  return UInt32.ofNat report.code
