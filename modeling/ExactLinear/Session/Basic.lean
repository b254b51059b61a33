import ExactLinear.Session.Evaluation

/-!
# Sessions

A `Session` executes statements one after the other on its store. A statement that fails changes
nothing and ends the run that it belongs to; what was bound before it stays bound. The same calls on
a session that they change are in `Mutable`.
-/

namespace ExactLinear

/-- The answer to a statement or to a run of statements. -/
structure Response where
  header : String
  /-- The steps that led to the result, as text. -/
  procedure : String
  result : String
  /-- The names that were bound, in order and with repetitions. -/
  bound : List String
deriving DecidableEq, Repr

/-- The response to an outcome. -/
def Response.ofOutcome (o : Outcome) (bound : List String) : Response :=
  ⟨o.header, o.transcript.render, o.result.text, bound⟩

/-- A store with the choice of how to solve systems. -/
structure Session where
  store : Store
  /-- Whether determinant ratios are tried before reduction. -/
  preferCramer : Bool
deriving DecidableEq, Repr

/-- A value that a name can stand for, if the result is one. -/
def Value.stored? : Value → Option Stored
  | .matrix m => some (.matrix m)
  | .vector v => some (.vector v)
  | _ => none

/-- The text of a stored value. -/
def Stored.text : Stored → String
  | .matrix m => m.text
  | .vector v => v.text

namespace Store

/-- The line of a matrix in a listing. -/
def matrixLine (name : String) (m : RatMatrix) : String :=
  name ++ ": " ++ m.shape.text ++ (if m.augmented then " augmented matrix" else " matrix")

/-- The line of a vector in a listing. -/
def vectorLine (name : String) (v : RatVector) : String :=
  name ++ ": vector of length " ++ toString v.length

/-- A line for each name. -/
def listing (s : Store) : String :=
  "\n".intercalate
    (s.namedMatrices.map (fun (name, m) => matrixLine name m)
      ++ s.namedVectors.map (fun (name, v) => vectorLine name v))

end Store

namespace Session

/-- The session without names. -/
def empty : Session := ⟨Store.empty, false⟩

/-- Evaluates an operation. -/
def evaluate (s : Session) (operation : Operation) : Except SessionError Outcome :=
  s.store.evaluate s.preferCramer operation

/-- Binds a name to a value. -/
def insert (s : Session) (name : String) (value : Stored) : Except SessionError Session := do
  let store ← (s.store.insert name value).mapError SessionError.badName
  return { s with store }

/-- Executes a statement. -/
def execute (s : Session) : Statement → Except SessionError (Session × Response)
  | .list => .ok (s, ⟨"list", "", s.store.listing, []⟩)
  | .define name value => do
    let next ← s.insert name value
    return (next, ⟨name, "", value.text, [name]⟩)
  | .bind name operation => do
    let outcome ← s.evaluate operation
    let some value := outcome.result.stored? | throw (.notBindable name)
    let next ← s.insert name value
    let renamed := { outcome with header := name ++ " = " ++ outcome.header }
    return (next, Response.ofOutcome renamed [name])
  | .run operation => do
    let outcome ← s.evaluate operation
    return (s, Response.ofOutcome outcome [])

/-- Executes statements up to the first one that fails. -/
def executeAll (s : Session) : List Statement → Session × Except SessionError (List Response)
  | [] => (s, .ok [])
  | statement :: statements =>
    match s.execute statement with
    | .error e => (s, .error e)
    | .ok (next, response) =>
      let (last, responses) := executeAll next statements
      (last, responses.map (response :: ·))

/-- The response to a run: the last of its responses, with all names that were bound. -/
def summarize (responses : List Response) : Except SessionError Response :=
  match responses.getLast? with
  | none => .error .emptyInput
  | some last => .ok { last with bound := responses.flatMap (·.bound) }

/-- Runs a text. The store is as the executed statements left it, also when one of them failed. -/
def run (s : Session) (text : String) : Session × Except SessionError Response :=
  match Command.readProgram text with
  | .error e => (s, .error (.program e))
  | .ok statements =>
    let (last, responses) := s.executeAll statements
    (last, responses.bind summarize)

end Session

/-- The result of a text in a session of its own. -/
def interpret (text : String) : Except SessionError String :=
  ((Session.empty.run text).2).map (·.result)

end ExactLinear
