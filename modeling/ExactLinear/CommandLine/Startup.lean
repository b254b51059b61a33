import ExactLinear.CommandLine.Arguments
import ExactLinear.Session.Basic
import ExactLinear.Settings.Basic
import ExactLinear.Store.Document

/-!
# Starting up

Before the first statement runs, the settings are put together and the store is read. Settings come,
from the weakest source to the strongest, from a file, from the environment and from the arguments.
What is known of the files is a function `look` from paths to what stands there.
-/

namespace ExactLinear.CommandLine

/-- What stands at a path. -/
inductive FileState where
  | absent
  | directory
  /-- A file whose text cannot be read. -/
  | unreadable
  | text (content : String)
  /-- Something that is read like a file but is none. -/
  | device (content : String)
deriving DecidableEq, Repr

namespace FileState

/-- Whether something is a file. -/
def isFile : FileState → Bool
  | .unreadable => true
  | .text _ => true
  | _ => false

/-- What can be read. -/
def content? : FileState → Option String
  | .text content => some content
  | .device content => some content
  | _ => none

/-- A text that was read at an absolute path with the given parts: below `dev` there are devices. -/
def ofContent (parts : List String) (content : String) : FileState :=
  if parts.head? = some "dev" then .device content else .text content

end FileState

/-- Why a file cannot be used. -/
inductive FileError where
  | unreadableConfig (path : String)
  | malformedConfig (path : String)
  | unreadableStore (path : String)
  /-- The file is no JSON document. -/
  | malformedStore (path : String)
  /-- The document is no store. -/
  | invalidStore (path : String)
  | unwritableStore (path : String)
deriving DecidableEq, Repr

/-- The message that a user reads. -/
def FileError.message : FileError → String
  | .unreadableConfig path => "Failed to read config file: " ++ path
  | .malformedConfig path => "Failed to parse JSON config: " ++ path
  | .unreadableStore path => "Failed to read store file: " ++ path
  | .malformedStore path => "Failed to parse store file: " ++ path
  | .invalidStore path => "Invalid store file: " ++ path
  | .unwritableStore path => "Failed to write store file: " ++ path

/-! ## Settings -/

/-- A path below a directory. -/
def joinPath (directory path : String) : String :=
  if directory.isEmpty || directory.toList.getLast? = some '/' then directory ++ path
  else directory ++ "/" ++ path

/-- The environment variables that have a meaning. -/
def environmentNames : List String :=
  ["LINEAL_CONFIG", "HOME", "LINEAL_LOG_LEVEL", "LINEAL_STORE", "LINEAL_SHOW_PROCEDURE",
    "LINEAL_PREFER_CRAMER"]

/-- The places of a settings file, the first one that is a file counts. -/
def configPaths (env : String → Option String) (workingDirectory : String) : List String :=
  (env "LINEAL_CONFIG").toList ++ [joinPath workingDirectory "lineal.json"] ++
    (env "HOME").toList.map (joinPath · ".config/lineal/config.json")

/-- The settings in a file that must exist. -/
def readSettings (look : String → FileState) (path : String) : Except FileError Settings :=
  match (look path).content? with
  | none => .error (.unreadableConfig path)
  | some content =>
    match Settings.ofText? content with
    | some settings => .ok settings
    | none => .error (.malformedConfig path)

/-- The settings of the first file among the paths, or the standard ones. -/
def findSettings (look : String → FileState) (paths : List String) : Except FileError Settings :=
  match paths.find? fun path => (look path).isFile with
  | some path => readSettings look path
  | none => .ok .standard

/-- The settings with what the arguments override. -/
def Options.override (o : Options) (s : Settings) : Settings where
  logLevel := if o.debug then some .debug else s.logLevel
  storePath := o.store.or s.storePath
  showProcedure := s.showProcedure && !o.quiet
  preferCramer := s.preferCramer || o.cramer

/-- The settings from all sources. -/
def loadSettings (o : Options) (env : String → Option String) (workingDirectory : String)
    (look : String → FileState) : Except FileError Settings := do
  let found ← match o.config with
    | some path => readSettings look path
    | none => findSettings look (configPaths env workingDirectory)
  return o.override (found.overriddenBy env)

/-! ## The store -/

/-- The store in a file; there need not be one. -/
def readStore (look : String → FileState) (path : String) : Except FileError Store :=
  if look path = .absent then .ok .empty
  else
    match (look path).content? with
    | none => .error (.unreadableStore path)
    | some content =>
      match Json.read? content with
      | none => .error (.malformedStore path)
      | some doc => (Store.ofJson doc).mapError fun _ => .invalidStore path

/-- The session in which the first statement runs. -/
def openSession (settings : Settings) (look : String → FileState) : Except FileError Session := do
  let store ← match settings.storePath with
    | some path => readStore look path
    | none => .ok .empty
  return ⟨store, settings.preferCramer⟩

end ExactLinear.CommandLine
