/-!
# Command-line arguments

The arguments name an action, `eval` with a statement or `repl`, and options that may stand before
the action or after it. An option is given at most once in each of the two places, and what stands
after the action wins. A value of an option does not start with `-`, unless it is joined to the
option by `=` or is `-` itself; after `--` no argument is an option.

The arguments are read from left to right, and the first one that is wrong or that asks for help
decides. An option whose value is an argument of its own counts from the next option or statement in
the same place on, or in the end: before an action that answers with help its value is not looked
at.
-/

namespace ExactLinear.CommandLine

/-- The options with a path as their value. -/
inductive PathOption where
  | config
  | store
deriving DecidableEq, Repr

/-- The options without a value. -/
inductive Flag where
  | quiet
  | cramer
  | debug
deriving DecidableEq, Repr

/-- The options in one place. -/
structure Options where
  config : Option String
  store : Option String
  quiet : Bool
  cramer : Bool
  debug : Bool
deriving DecidableEq, Repr

namespace Options

/-- No option at all. -/
def none : Options := ⟨.none, .none, false, false, false⟩

/-- The value of a path option. -/
def path? (o : Options) : PathOption → Option String
  | .config => o.config
  | .store => o.store

/-- Whether a flag is given. -/
def has (o : Options) : Flag → Bool
  | .quiet => o.quiet
  | .cramer => o.cramer
  | .debug => o.debug

/-- Gives a value to a path option, unless it is empty or the option has one. -/
def setPath? (o : Options) (option : PathOption) (value : String) : Option Options :=
  if value.isEmpty || (o.path? option).isSome then .none
  else
    match option with
    | .config => some { o with config := some value }
    | .store => some { o with store := some value }

/-- Gives a flag, unless it is given already. -/
def setFlag? (o : Options) (flag : Flag) : Option Options :=
  if o.has flag then .none
  else
    match flag with
    | .quiet => some { o with quiet := true }
    | .cramer => some { o with cramer := true }
    | .debug => some { o with debug := true }

/-- The options of two places, of which the inner one wins. -/
def merge (outer inner : Options) : Options where
  config := inner.config.or outer.config
  store := inner.store.or outer.store
  quiet := inner.quiet || outer.quiet
  cramer := inner.cramer || outer.cramer
  debug := inner.debug || outer.debug

end Options

/-- What the program is asked to do. -/
inductive Action where
  /-- Run one statement. -/
  | eval (statement : String)
  /-- Run the lines of the standard input. -/
  | repl
deriving DecidableEq, Repr

/-- An action with its options. -/
structure Invocation where
  options : Options
  action : Action
deriving DecidableEq, Repr

/-- What help is about. -/
inductive Topic where
  | program
  | eval
  | repl
  | help
deriving DecidableEq, Repr

/-- Why the arguments lead to no action. -/
inductive Refusal where
  | help (topic : Topic)
  | version
  | misuse
deriving DecidableEq, Repr

/-- What an option does. -/
inductive Meaning where
  | path (option : PathOption)
  | flag (flag : Flag)
  | help
  | version
deriving DecidableEq, Repr

/-- The options after two dashes. -/
def longOptions : List (String × Meaning) :=
  [("config", .path .config), ("store", .path .store), ("quiet", .flag .quiet),
    ("cramer", .flag .cramer), ("debug", .flag .debug), ("help", .help), ("version", .version)]

/-- The options after one dash. -/
def shortOptions : List (Char × Meaning) :=
  [('q', .flag .quiet), ('h', .help), ('V', .version)]

/-- The words that can stand in the place of an action, with what help says about them. -/
def words : List (String × Topic) := [("eval", .eval), ("repl", .repl), ("help", .help)]

/-! ## Reading -/

/-- Where the next argument stands. -/
inductive Place where
  /-- Before the action. -/
  | top
  | eval (statement : Option String)
  | repl
  /-- After the word `help`, and perhaps after a topic. -/
  | help (topic : Option Topic)
deriving DecidableEq, Repr

/-- The options of one place, as far as they have been read. -/
structure Given where
  options : Options
  /-- An option that does not count yet, with its value if that has been read. -/
  pending : Option (PathOption × Option String)
deriving DecidableEq, Repr

namespace Given

/-- No option at all. -/
def none : Given := ⟨.none, .none⟩

/-- Lets the pending option count, which has a value by now. -/
def settled? (g : Given) : Option Options :=
  match g.pending with
  | .none => some g.options
  | some (_, .none) => .none
  | some (option, some value) => g.options.setPath? option value

/-- The option that waits for its value. -/
def awaited? (g : Given) : Option PathOption :=
  match g.pending with
  | some (option, .none) => some option
  | _ => .none

end Given

/-- What has been read so far. -/
structure Reading where
  place : Place
  /-- The options before the action. -/
  outer : Given
  /-- The options after the action. -/
  inner : Given
  /-- Whether `--` was read. -/
  escaped : Bool
deriving DecidableEq, Repr

namespace Reading

def start : Reading := ⟨.top, .none, .none, false⟩

/-- What help is about in this place. -/
def topic (r : Reading) : Topic :=
  match r.place with
  | .top => .program
  | .eval _ => .eval
  | .repl => .repl
  | .help _ => .help

/-- The options of this place. -/
def given (r : Reading) : Given := if r.place = .top then r.outer else r.inner

/-- Replaces the options of this place. -/
def setGiven (r : Reading) (g : Given) : Reading :=
  if r.place = .top then { r with outer := g } else { r with inner := g }

/-- Changes the options of this place, none of which is pending. -/
def setOptions (r : Reading) : Option Options → Except Refusal Reading
  | none => .error .misuse
  | some o => .ok (r.setGiven ⟨o, none⟩)

/-- Lets the pending option of this place count. -/
def settle (r : Reading) : Except Refusal Reading := r.setOptions r.given.settled?

/-- Reads a flag, or a request for help or for the version. -/
def readMeaning (r : Reading) : Meaning → Except Refusal Reading
  | .path _ => .error .misuse
  | .flag f => r.setOptions (r.given.options.setFlag? f)
  | .help => .error (.help r.topic)
  | .version => .error (if r.place = .top then .version else .misuse)

/-- Reads the letters after one dash. -/
def readShort (r : Reading) (letters : List Char) : Except Refusal Reading :=
  letters.foldlM
    (fun r c =>
      match shortOptions.lookup c with
      | some m => r.readMeaning m
      | none => .error .misuse)
    r

/-- Reads a name after two dashes, with the value after its equals sign if there is one. -/
def readLong (r : Reading) (name : String) (value : Option String) : Except Refusal Reading :=
  match longOptions.lookup name, value with
  | some (.path p), some v => r.setOptions (r.given.options.setPath? p v)
  | some (.path p), none => .ok (r.setGiven { r.given with pending := some (p, none) })
  | some m, none => r.readMeaning m
  | _, _ => .error .misuse

/-- Reads an argument that starts with a dash and goes on. -/
def readOption (r : Reading) (arg : List Char) : Except Refusal Reading :=
  match arg with
  | '-' :: '-' :: long => do
    let value := match long.dropWhile (· ≠ '=') with
      | [] => none
      | _ :: v => some (String.ofList v)
    (← r.settle).readLong (String.ofList (long.takeWhile (· ≠ '='))) value
  | letters => do (← r.settle).readShort (letters.drop 1)

/-- Reads an argument that is no option and no value of one. -/
def readWord (r : Reading) (word : String) : Except Refusal Reading :=
  match r.place with
  | .top =>
    match if r.escaped then none else words.lookup word with
    | some .eval => .ok { r with place := .eval none }
    | some .repl => .ok { r with place := .repl }
    | some .help => .ok { r with place := .help none }
    | _ => .error .misuse
  | .eval none => do return { ← r.settle with place := .eval (some word) }
  | .help none =>
    match words.lookup word with
    | some topic => .ok { r with place := .help (some topic) }
    | none => .error .misuse
  | _ => .error .misuse

/-- Whether an argument has the form of an option. -/
def isOption (arg : List Char) : Bool := arg.head? = some '-' && arg.length ≠ 1

/-- Reads one argument. -/
def read (r : Reading) (arg : String) : Except Refusal Reading :=
  match r.place with
  | .help _ => r.readWord arg
  | _ =>
    if r.escaped then r.readWord arg
    else if arg = "--" then .ok { r with escaped := true }
    else if isOption arg.toList then r.readOption arg.toList
    else
      match r.given.awaited? with
      | some p => .ok (r.setGiven { r.given with pending := some (p, some arg) })
      | none => r.readWord arg

/-- The invocation, after the last argument. -/
def finish (r : Reading) : Except Refusal Invocation :=
  match r.place, r.outer.settled?, r.inner.settled? with
  | .help topic, _, _ => .error (.help (topic.getD .program))
  | .eval (some statement), some outer, some inner => .ok ⟨outer.merge inner, .eval statement⟩
  | .repl, some outer, some inner => .ok ⟨outer.merge inner, .repl⟩
  | _, _, _ => .error .misuse

end Reading

/-- The invocation that the arguments ask for. -/
def readArguments (args : List String) : Except Refusal Invocation := do
  (← args.foldlM Reading.read Reading.start).finish

end ExactLinear.CommandLine
