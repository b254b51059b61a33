/-!
# Log levels

The levels of detail of a log. In a document a level has exactly its name; what a user types may be
in any case, and a warning may be spelled out.
-/

namespace ExactLinear

/-- How much is logged. -/
inductive LogLevel where
  | error
  | warn
  | info
  | debug
  | trace
deriving DecidableEq, Repr

namespace LogLevel

/-- The name of a level. -/
def name : LogLevel → String
  | .error => "error"
  | .warn => "warn"
  | .info => "info"
  | .debug => "debug"
  | .trace => "trace"

/-- All levels, from the least to the most detail. -/
def all : List LogLevel := [.error, .warn, .info, .debug, .trace]

/-- The name in capital letters, as it stands in a log. -/
def label (l : LogLevel) : String := l.name.map Char.toUpper

/-- The level with exactly this name. -/
def ofName? (s : String) : Option LogLevel := all.find? (·.name = s)

/-- The level that a user means, or a message. -/
def read (s : String) : Except String LogLevel :=
  let lower := s.map Char.toLower
  if lower = "warning" then
    .ok .warn
  else
    match ofName? lower with
    | some l => .ok l
    | none => .error ("unknown log level: " ++ lower)

end LogLevel

end ExactLinear
