import ExactLinear.Json.Reader
import ExactLinear.Settings.LogLevel
import ExactLinear.Text.Blank

/-!
# Settings

Settings come from a JSON document and are then overridden by environment variables. In a document
every known member occurs at most once and has a value of its type; other members are not looked at.
The values may also stand in an array, in the order of the fields. What a document leaves out has
its default, and a variable without a meaning is ignored.
-/

namespace ExactLinear

/-- What a user can choose. -/
structure Settings where
  logLevel : Option LogLevel
  /-- The file that holds the store. -/
  storePath : Option String
  /-- Whether the steps are printed before a result. -/
  showProcedure : Bool
  /-- Whether determinant ratios are tried before reduction. -/
  preferCramer : Bool
deriving DecidableEq, Repr

namespace Settings

/-- The settings of a user who chooses nothing. -/
def standard : Settings := ⟨none, none, true, false⟩

instance : Inhabited Settings := ⟨standard⟩

/-! ## Documents -/

open Json (Tree pieceText?)

/-- A Boolean. -/
def readFlag? : Tree → Option Bool
  | .bool b => some b
  | _ => none

/-- A path or nothing. -/
def readPath? : Tree → Option (Option String)
  | .null => some none
  | .string pieces => (pieceText? pieces).map some
  | _ => none

/-- A log level or nothing. A level is a string, or the only name in an object with the value
null. -/
def readLevel? : Tree → Option (Option LogLevel)
  | .null => some none
  | .string pieces => do
    return some (← LogLevel.ofName? (← pieceText? pieces))
  | .object [(key, .null)] => do
    return some (← LogLevel.ofName? (← pieceText? key))
  | _ => none

/-- The value of a field: its default if nothing is given, and none if it is given twice. -/
def field? {α : Type} (read? : Tree → Option α) (standard : α) : List Tree → Option α
  | [] => some standard
  | [t] => read? t
  | _ => none

/-- The settings for which each field is given these values. -/
def ofFields? (logLevel storePath showProcedure preferCramer : List Tree) : Option Settings := do
  return {
    logLevel := ← field? readLevel? standard.logLevel logLevel
    storePath := ← field? readPath? standard.storePath storePath
    showProcedure := ← field? readFlag? standard.showProcedure showProcedure
    preferCramer := ← field? readFlag? standard.preferCramer preferCramer }

/-- A member of an object under its decoded name. -/
def namedMember? (member : List Json.Piece × Tree) : Option (String × Tree) :=
  (pieceText? member.1).map (·, member.2)

/-- The settings of a document. -/
def ofTree? : Tree → Option Settings
  | .object members => do
    let members ← members.mapM namedMember?
    let given (name : String) := (members.filter (·.1 = name)).map (·.2)
    ofFields? (given "log_level") (given "store_path") (given "show_procedure")
      (given "prefer_cramer")
  | .array items =>
    if items.length ≤ 4 then
      let given (i : Nat) := items[i]?.toList
      ofFields? (given 0) (given 1) (given 2) (given 3)
    else
      none
  | _ => none

/-- The settings of the text of a document. -/
def ofText? (text : String) : Option Settings := (Tree.ofText? text).bind ofTree?

/-! ## Environment variables -/

/-- The truth value that a user means. -/
def readBool? (s : String) : Option Bool :=
  let word := (Text.trim s).map Char.toLower
  if word ∈ ["1", "true", "yes", "on"] then some true
  else if word ∈ ["0", "false", "no", "off"] then some false
  else none

/-- The settings with what the environment overrides. -/
def overriddenBy (s : Settings) (env : String → Option String) : Settings where
  logLevel :=
    match (env "LINEAL_LOG_LEVEL").map LogLevel.read with
    | some (.ok l) => some l
    | _ => s.logLevel
  storePath := (env "LINEAL_STORE").or s.storePath
  showProcedure := ((env "LINEAL_SHOW_PROCEDURE").bind readBool?).getD s.showProcedure
  preferCramer := ((env "LINEAL_PREFER_CRAMER").bind readBool?).getD s.preferCramer

end Settings

end ExactLinear
