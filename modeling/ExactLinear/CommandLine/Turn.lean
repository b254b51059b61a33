import ExactLinear.CommandLine.Startup

/-!
# Turns

In a `Turn` the session runs one input. The turn says what is printed, which error is reported, and
which text is to be written to the store file: an input that succeeds and binds a name is followed
by the whole store, and no other input is.
-/

namespace ExactLinear.CommandLine

/-- What one input leads to. -/
structure Turn where
  session : Session
  output : String
  error : Option SessionError
  /-- The path and the new text of the store file. -/
  save : Option (String × String)
deriving DecidableEq, Repr

/-- The text of a response: its steps, if it has any and they are wanted, and its result. -/
def responseText (showProcedure : Bool) (r : Response) : String :=
  let steps :=
    if showProcedure && !r.procedure.isEmpty then
      r.header ++ "\n" ++ Text.trimEnd r.procedure ++ "\n\n"
    else
      ""
  steps ++ r.result ++ "\n"

/-- The text of a store file. -/
def storeText (s : Store) : String := s.toJson.pretty

/-- Runs one input. -/
def takeTurn (settings : Settings) (session : Session) (input : String) : Turn :=
  match session.run input with
  | (after, .error e) => ⟨after, "", some e, none⟩
  | (after, .ok r) =>
    { session := after
      output := responseText settings.showProcedure r
      error := none
      save := if r.bound.isEmpty then none else settings.storePath.map (·, storeText after.store) }

/-- The input in a line, unless the line is blank or a comment. -/
def lineInput? (line : String) : Option String :=
  let input := Text.trim line
  if input.isEmpty || input.toList.head? = some '#' then none else some input

/-- An error report, as it stands on a line of the error output. -/
def report (message : String) : String := "Error: " ++ message

end ExactLinear.CommandLine
