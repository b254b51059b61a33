import ExactLinear.CommandLine.Directory
import ExactLinear.CommandLine.Turn
import ExactLinear.CommandLine.Usage

/-!
# Processes

A process is one run of the program in a directory, from its arguments to its exit code. It takes
one turn for `eval` and one for each line of its input for `repl`, and writes the store file between
the turns.
-/

namespace ExactLinear.CommandLine

/-- A process between two turns. -/
structure Process where
  session : Session
  directory : Directory
  output : String
  /-- The error reports. -/
  errors : List String
deriving DecidableEq, Repr

namespace Process

/-- Reports an error. -/
def complain (p : Process) (message : String) : Process :=
  { p with errors := p.errors ++ [report message] }

/-- Writes the store file, if there is something to write. The second component tells whether all is
well. -/
def save (p : Process) : Option (String × String) → Process × Bool
  | none => (p, true)
  | some (path, content) =>
    match p.directory.write? path content with
    | some directory => ({ p with directory }, true)
    | none => (p.complain (FileError.unwritableStore path).message, false)

/-- Takes a turn. The second component tells whether it succeeded. -/
def step (settings : Settings) (p : Process) (input : String) : Process × Bool :=
  let turn := takeTurn settings p.session input
  let after := { p with session := turn.session, output := p.output ++ turn.output }
  match turn.error with
  | some e => (after.complain e.message, false)
  | none => after.save turn.save

/-- Takes a turn for each line that holds an input. -/
def steps (settings : Settings) (p : Process) (lines : List String) : Process :=
  lines.foldl (fun p line =>
    match lineInput? line with
    | none => p
    | some input => (p.step settings input).1) p

end Process

/-- The lines of a text, without what ends them. -/
def textLines (text : String) : List String :=
  let lines := (text.toList.splitOnP (· = '\n')).map String.ofList
  if lines.getLast? = some "" then lines.dropLast else lines

/-- What a process leaves behind. -/
structure Exit where
  code : Nat
  output : String
  errors : List String
  directory : Directory
deriving DecidableEq, Repr

/-- What a process leaves behind that does not come to its first turn. -/
def refuse (d : Directory) : Refusal → Exit
  | .help topic => ⟨0, usage topic, [], d⟩
  | .version => ⟨0, versionText, [], d⟩
  | .misuse => ⟨2, "", [], d⟩

/-- Runs an action with its settings in a session. -/
def perform (settings : Settings) (session : Session) (d : Directory) (input : String) :
    Action → Exit
  | .eval statement =>
    let (p, ok) := Process.step settings ⟨session, d, "", []⟩ statement
    ⟨if ok then 0 else 1, p.output, p.errors, p.directory⟩
  | .repl =>
    let p := Process.steps settings ⟨session, d, "", []⟩ (textLines input)
    ⟨0, p.output, p.errors, p.directory⟩

/-- Runs the program in a directory. -/
def run (args : List String) (env : String → Option String) (input : String) (d : Directory) :
    Exit :=
  match readArguments args with
  | .error refusal => refuse d refusal
  | .ok invocation =>
    let opened : Except FileError (Settings × Session) := do
      let settings ← loadSettings invocation.options env d.path d.look
      return (settings, ← openSession settings d.look)
    match opened with
    | .error e => ⟨1, "", [report e.message], d⟩
    | .ok (settings, session) => perform settings session d input invocation.action

end ExactLinear.CommandLine
