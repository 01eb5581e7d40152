/-
# The help text

What the program prints when it is asked for help, or called with nothing to do.
-/

import ElectiveCalculus.Text.Basic

namespace ElectiveCalculus.CommandLine

/-- The lines of the help text. The last one is empty, so the text ends with a line break of
its own before the one that printing adds. -/
def usageLines : List String :=
  ["Usage: elective [COMMAND] [OPTIONS] <input>...",
    "",
    "COMMANDS:",
    "  parse <expr>                 Parse and pretty-print an elective function",
    "  normalize <equation>         Reduce an equation to normal form",
    "  infer <equation>...          Conjoin premises and eliminate middle terms",
    "  help                         Show this help message",
    "",
    "OPTIONS:",
    "  -h, --help                   Show help message",
    "  --vars x,y,z                 Ordered variables to normalize over",
    "  --eliminate y                Symbols to eliminate (infer only)",
    "",
    "EXAMPLES:",
    "  elective parse \"(1-x)yz\"",
    "  elective normalize \"x = xy\" --vars x,y",
    "  elective infer --vars x,y,z --eliminate y \"y = xy\" \"z = yz\"",
    "",
    "SYNTAX:",
    "  Symbols:            a, b, ..., z",
    "  Constants:          0, 1",
    "  Negation:           (1-x)",
    "  Product:            xy (juxtaposition)",
    "  Equation:           lhs = rhs",
    ""]

/-- The help text. -/
def usage : Text := "\n".intercalate usageLines

end ElectiveCalculus.CommandLine
