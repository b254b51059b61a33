import ExactLinear.Command.Program
import ExactLinear.Worked.Matrices
import ExactLinear.Worked.Systems
import ExactLinear.Worked.Vectors

/-!
# Evaluation of operations

An operation is evaluated against a store, which it does not change. The names in it are checked
first: the kinds of the operands decide which worked operation is meant, and only then are their
values looked up.
-/

namespace ExactLinear

/-- Why a statement has no answer. -/
inductive SessionError where
  | program (e : ProgramError)
  | linear (e : LinearError)
  | badName (e : NameError)
  /-- There is no statement in the input. -/
  | emptyInput
  /-- The name stands for nothing. -/
  | unknownName (name : String)
  /-- Vectors have two products, and `*` does not say which. -/
  | ambiguousProduct (left right : String)
  /-- The operator has no meaning for operands of these kinds. -/
  | unsupported (op : BinaryOp) (left right : String)
  | argumentCount (function : Builtin) (count : Nat)
  /-- The result is neither a matrix nor a vector. -/
  | notBindable (name : String)
deriving DecidableEq, Repr

/-- The message that a user reads. -/
def ProgramError.message : ProgramError → String
  | .ungrammatical => "Parse error:"
  | .unknownFunction name => "Unknown function: " ++ name
  | .mixedBars => "Invalid literal: either every row or no row may contain `|`"
  | .linear e => e.message

/-- The message that a user reads. -/
def SessionError.message : SessionError → String
  | .program e => e.message
  | .linear e => e.message
  | .badName e => e.message
  | .emptyInput => "Empty input"
  | .unknownName name => "Unknown name: " ++ name
  | .ambiguousProduct left right =>
    "Unsupported operands: " ++ left ++ " * " ++ right ++ ": use " ++ left ++ " . " ++ right
      ++ " or cross(" ++ left ++ ", " ++ right ++ ")"
  | .unsupported op left right =>
    "Unsupported operands: " ++ left ++ " " ++ op.title ++ " " ++ right
  | .argumentCount function count =>
    "Unsupported operands: " ++ function.title ++ " takes exactly one argument, got "
      ++ toString count
  | .notBindable name =>
    "Unsupported operands: only matrices and vectors can be bound to " ++ name

namespace Store

/-- The matrix of a name, with the name. -/
def namedMatrix (s : Store) (name : String) : Except SessionError (Named RatMatrix) :=
  match checkName .matrix name with
  | .error e => .error (.badName e)
  | .ok i =>
    match s.matrixAt i with
    | some m => .ok ⟨name, m⟩
    | none => .error (.unknownName name)

/-- The vector of a name, with the name. -/
def namedVector (s : Store) (name : String) : Except SessionError (Named RatVector) :=
  match checkName .vector name with
  | .error e => .error (.badName e)
  | .ok i =>
    match s.vectorAt i with
    | some v => .ok ⟨name, v⟩
    | none => .error (.unknownName name)

/-! ## The forms of an operation -/

/-- Evaluates a name alone. -/
def evaluateShow (s : Store) (name : String) : Except SessionError Outcome := do
  match ← (kindOf name).mapError SessionError.badName with
  | .matrix => return ⟨name, [], .matrix (← s.namedMatrix name).value⟩
  | .vector => return ⟨name, [], .vector (← s.namedVector name).value⟩

/-- Evaluates two matrices with an operation between them. -/
def onMatrices (s : Store) (left right : String)
    (f : Named RatMatrix → Named RatMatrix → Except LinearError Outcome) :
    Except SessionError Outcome := do
  let a ← s.namedMatrix left
  let b ← s.namedMatrix right
  (f a b).mapError .linear

/-- Evaluates two vectors with an operation between them. -/
def onVectors (s : Store) (left right : String)
    (f : Named RatVector → Named RatVector → Except LinearError Outcome) :
    Except SessionError Outcome := do
  let u ← s.namedVector left
  let v ← s.namedVector right
  (f u v).mapError .linear

/-- Evaluates a matrix times a vector. -/
def onMatrixAndVector (s : Store) (left right : String) : Except SessionError Outcome := do
  let a ← s.namedMatrix left
  let v ← s.namedVector right
  (Worked.applyMatrix a v).mapError .linear

/-- Evaluates an operator between two names. -/
def evaluateBinary (s : Store) (op : BinaryOp) (left right : String) :
    Except SessionError Outcome := do
  let l ← (kindOf left).mapError SessionError.badName
  let r ← (kindOf right).mapError SessionError.badName
  match l, op, r with
  | .matrix, .plus, .matrix => s.onMatrices left right Worked.addMatrices
  | .matrix, .minus, .matrix => s.onMatrices left right Worked.subtractMatrices
  | .matrix, .times, .matrix => s.onMatrices left right Worked.multiplyMatrices
  | .matrix, .dot, .matrix => s.onMatrices left right Worked.multiplyMatrices
  | .matrix, .times, .vector => s.onMatrixAndVector left right
  | .matrix, .dot, .vector => s.onMatrixAndVector left right
  | .vector, .plus, .vector => s.onVectors left right Worked.addVectors
  | .vector, .minus, .vector => s.onVectors left right Worked.subtractVectors
  | .vector, .dot, .vector => s.onVectors left right Worked.dot
  | .vector, .times, .vector => throw (.ambiguousProduct left right)
  | _, _, _ => throw (.unsupported op left right)

/-- Evaluates a multiple. -/
def evaluateScaled (s : Store) (k : Rat) (name : String) : Except SessionError Outcome := do
  match ← (kindOf name).mapError SessionError.badName with
  | .matrix => return Worked.scaleMatrix k (← s.namedMatrix name)
  | .vector => return Worked.scaleVector k (← s.namedVector name)

/-- Solves a system. When determinant ratios are preferred they are tried on a square system, and
the system is reduced if they do not exist. -/
def solveSystem (preferCramer : Bool) (system : Named RatMatrix) : Except LinearError Outcome :=
  let m := system.value
  if preferCramer && m.augmented && m.shape.rows = m.variableCount then
    match Worked.cramer system with
    | .error .cramerNotApplicable => Worked.solve system
    | result => result
  else
    Worked.solve system

/-- The argument of a function that takes one. -/
def singleArgument (function : Builtin) : List String → Except SessionError String
  | [name] => .ok name
  | args => .error (.argumentCount function args.length)

/-- Evaluates a function of one matrix. -/
def onMatrix (s : Store) (function : Builtin) (args : List String)
    (f : Named RatMatrix → Except LinearError Outcome) : Except SessionError Outcome := do
  let a ← s.namedMatrix (← singleArgument function args)
  (f a).mapError .linear

/-- Evaluates a call. -/
def evaluateCall (s : Store) (preferCramer : Bool) (function : Builtin) (args : List String) :
    Except SessionError Outcome :=
  match function with
  | .det => s.onMatrix function args Worked.determinant
  | .inverse => s.onMatrix function args Worked.invert
  | .transpose => s.onMatrix function args fun a => .ok (Worked.transpose a)
  | .adjugate => s.onMatrix function args Worked.adjugate
  | .rref => s.onMatrix function args fun a => .ok (Worked.reduce a)
  | .solve => s.onMatrix function args (solveSystem preferCramer)
  | .cramer => s.onMatrix function args Worked.cramer
  | .cross => do
    let operands ← args.mapM s.namedVector
    (Worked.cross operands).mapError .linear
  | .norm2 => do
    return Worked.normSquared (← s.namedVector (← singleArgument function args))

/-- Evaluates an operation. -/
def evaluate (s : Store) (preferCramer : Bool) : Operation → Except SessionError Outcome
  | .show name => s.evaluateShow name
  | .binary op left right => s.evaluateBinary op left right
  | .scaled factor name => s.evaluateScaled factor name
  | .call function args => s.evaluateCall preferCramer function args

end Store

end ExactLinear
