import ExactLinear.CommandLine.Process

/-!
# The program

The command line on a real file system: it looks files up, prints, and writes the store file. What
is printed and written is decided by `takeTurn`, `loadSettings` and `openSession`.
-/

namespace ExactLinear.CommandLine

/-- The parts of an absolute path. -/
def absoluteParts (path : String) : List String :=
  if path.startsWith "/" then (Directory.parts path).filter (!Directory.staysHere ·) else []

/-- What stands at a path. Nothing does where a name on the way is that of a file, or where no file
can have such a path. A directory is opened like a file and fails only when it is read, and that
error names no path. -/
def lookUp (path : String) : IO FileState := do
  try
    let content ← IO.FS.readFile path
    return .ofContent (absoluteParts path) content
  catch
    | .noFileOrDirectory .. => return .absent
    | .invalidArgument .. => return .absent
    | .inappropriateType (some _) .. => return .absent
    | .inappropriateType none .. => return .directory
    | _ => return .unreadable

/-- What stands at each of some paths; elsewhere nothing does. -/
def lookUpAll (paths : List String) : IO (String → FileState) := do
  let found ← paths.mapM fun path => return (path, ← lookUp path)
  return fun path => (found.lookup path).getD .absent

/-- The environment variables that the program reads. -/
def readEnvironment : IO (String → Option String) := do
  let found ← environmentNames.mapM fun name => return (name, ← IO.getEnv name)
  return fun name => (found.lookup name).join

/-- Reports an error. -/
def complain (message : String) : IO Unit := IO.eprintln (report message)

/-- Writes the store file, if there is something to write, and tells whether all is well. -/
def saveTurn : Option (String × String) → IO Bool
  | none => return true
  | some (path, content) => do
    try
      IO.FS.writeFile path content
      return true
    catch _ =>
      complain (FileError.unwritableStore path).message
      return false

/-- Prints what a turn has to say, and tells whether it succeeded. -/
def finishTurn (turn : Turn) : IO Bool := do
  IO.print turn.output
  (← IO.getStdout).flush
  match turn.error with
  | some e =>
    complain e.message
    return false
  | none => saveTurn turn.save

/-- Takes turns until the input ends. -/
partial def takeTurns (settings : Settings) (session : Session) : IO Unit := do
  let line ← (← IO.getStdin).getLine
  if !line.isEmpty then
    match lineInput? line with
    | none => takeTurns settings session
    | some input =>
      let turn := takeTurn settings session input
      discard (finishTurn turn)
      takeTurns settings turn.session

/-- Starts up and performs an action. -/
def start (invocation : Invocation) : IO UInt32 := do
  let env ← readEnvironment
  let workingDirectory := toString (← IO.currentDir)
  let look ← lookUpAll (invocation.options.config.toList ++ configPaths env workingDirectory)
  match loadSettings invocation.options env workingDirectory look with
  | .error e =>
    complain e.message
    return 1
  | .ok settings =>
    match openSession settings (← lookUpAll settings.storePath.toList) with
    | .error e =>
      complain e.message
      return 1
    | .ok session =>
      match invocation.action with
      | .eval statement =>
        let ok ← finishTurn (takeTurn settings session statement)
        return if ok then 0 else 1
      | .repl =>
        takeTurns settings session
        return 0

end ExactLinear.CommandLine

open ExactLinear.CommandLine

def main (args : List String) : IO UInt32 := do
  match readArguments args with
  | .ok invocation => start invocation
  | .error (.help topic) =>
    IO.print (usage topic)
    return 0
  | .error .version =>
    IO.print versionText
    return 0
  | .error .misuse =>
    IO.eprint (usage .program)
    return 2
