import ExactLinear.CommandLine.Arguments

/-!
# Usage

What the program prints when it is asked for help or for its version.
-/

namespace ExactLinear.CommandLine

/-- The name and the version of the program. -/
def versionText : String := "lineal 0.1.0\n"

/-- The options that every action has. -/
def commonOptions : List String :=
  ["      --config <CONFIG>  Configuration file (JSON)",
    "      --store <STORE>    Store file to load values from and save bound results to",
    "  -q, --quiet            Print results only, without the step-by-step procedure",
    "      --cramer           Try Cramer's rule before Gauss-Jordan in solve(..)",
    "      --debug            Enable debug logging",
    "  -h, --help             Print help"]

/-- The lines of the help on a topic. -/
def usageLines : Topic → List String
  | .program =>
    ["Exact-rational linear algebra calculator with step-by-step procedures", "",
      "Usage: lineal [OPTIONS] <COMMAND>", "",
      "Commands:",
      "  eval  Run statements, e.g. \"A = [[2, 1 | 5], [1, -1 | 1]]; solve(A)\"",
      "  repl  Read statements from standard input, one per line",
      "  help  Print this message or the help of the given subcommand(s)", "",
      "Options:"] ++ commonOptions ++ ["  -V, --version          Print version"]
  | .eval =>
    ["Run statements, e.g. \"A = [[2, 1 | 5], [1, -1 | 1]]; solve(A)\"", "",
      "Usage: lineal eval [OPTIONS] <STATEMENT>", "",
      "Arguments:", "  <STATEMENT>  The statements to run", "", "Options:"] ++ commonOptions
  | .repl =>
    ["Read statements from standard input, one per line", "", "Usage: lineal repl [OPTIONS]", "",
      "Options:"] ++ commonOptions
  | .help =>
    ["Print this message or the help of the given subcommand(s)", "",
      "Usage: lineal help [COMMAND]...", "",
      "Arguments:", "  [COMMAND]...  Print help for the subcommand(s)"]

/-- The help on a topic. -/
def usage (topic : Topic) : String := String.join ((usageLines topic).map (· ++ "\n"))

end ExactLinear.CommandLine
