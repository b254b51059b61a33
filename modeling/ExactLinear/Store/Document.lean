import ExactLinear.Json.Printer
import ExactLinear.Store.Basic

/-!
# Stores as JSON documents

A document has one member for the matrices and one for the vectors, each with a member for each
name. A rational is an object with its numerator and its denominator; an integer that has no 64-bit
signed form is a string of digits. `Store.toJson` writes such a document and `Store.ofJson` reads
it.

Reading is more liberal: both members may be missing, a matrix without a Boolean flag is not
augmented, a fraction need not be in lowest terms, and what has no meaning is passed over.
-/

namespace ExactLinear

/-- Why a document is not a store. -/
inductive DocumentError where
  /-- The member for the matrices or the vectors is not an object. -/
  | notAnObject (member : String)
  /-- A matrix has no array of rows. -/
  | missingRows
  | notAnArray (found : Json)
  | notAFraction (found : Json)
  | missingPart (part : String)
  /-- The numerator or the denominator, as it is shown, is not an integer. -/
  | notAnInteger (shown : String)
  | linear (e : LinearError)
  | badName (e : NameError)
  /-- The error arose in this matrix or vector. -/
  | inside (place : String) (e : DocumentError)

/-- The message that a user reads: the places from the outside to the inside, then the cause. -/
def DocumentError.message : DocumentError → String
  | .notAnObject member => "\"" ++ member ++ "\" must be an object"
  | .missingRows => "missing \"values\" array"
  | .notAnArray found => "expected an array of fractions, got " ++ found.compact
  | .notAFraction found => "expected a Fraction object, got " ++ found.compact
  | .missingPart part => "Fraction without " ++ part
  | .notAnInteger shown => "not an integer: " ++ shown
  | .linear e => e.message
  | .badName e => e.message
  | .inside place e => place ++ ": " ++ e.message

/-- Names the place of an error. -/
def DocumentError.locate {α : Type} (place : String) :
    Except DocumentError α → Except DocumentError α :=
  Except.mapError (.inside place)

/-! ## Integers and fractions -/

/-- The integer has a 64-bit signed form. -/
def isSigned64 (n : Int) : Bool :=
  -Int.ofNat (powerOfTwo 63) ≤ n && n < Int.ofNat (powerOfTwo 63)

/-- An integer, as a string if it is too large for a JSON integer. -/
def integerToJson (n : Int) : Json :=
  if isSigned64 n then .integer n else .string (toString n)

/-- The value of a digit string. It may contain underscores, but not in front. -/
def readDigits? (s : List Char) : Option Nat :=
  match s with
  | [] => none
  | c :: rest =>
    if c.isDigit && rest.all (fun c => c.isDigit || c = '_') then
      some (Nat.ofDigitChars 10 (s.filter Char.isDigit) 0)
    else
      none

/-- The value of a string of digits with at most one sign. -/
def readInteger? (s : String) : Option Int :=
  match s.toList with
  | '-' :: digits => (readDigits? digits).map fun n => -Int.ofNat n
  | '+' :: digits => (readDigits? digits).map Int.ofNat
  | digits => (readDigits? digits).map Int.ofNat

/-- The integer that a JSON value stands for. -/
def integerOfJson : Json → Except DocumentError Int
  | .integer n => if isSigned64 n then .ok n else .error (.notAnInteger (toString n))
  | .string s =>
    match readInteger? s with
    | some n => .ok n
    | none => .error (.notAnInteger (Text.quoted s))
  | other => .error (.notAnInteger other.compact)

/-- The name of the member that marks a fraction, and its value. -/
def fractionMark : String × Json := ("__type__", .string "Fraction")

/-- A rational as an object. -/
def fractionToJson (r : Rat) : Json :=
  .object
    [fractionMark, ("denominator", integerToJson (Int.ofNat r.den)),
      ("numerator", integerToJson r.num)]

/-- The numerator or the denominator of a fraction. -/
def partOfJson (part : String) (j : Json) : Except DocumentError Int :=
  match j.member? part with
  | some v => integerOfJson v
  | none => .error (.missingPart part)

/-- The rational that a JSON value stands for. -/
def fractionOfJson (j : Json) : Except DocumentError Rat :=
  if (j.member? fractionMark.1).bind Json.string? = fractionMark.2.string? then do
    let numer ← partOfJson "numerator" j
    let denom ← partOfJson "denominator" j
    (ratio numer denom).mapError .linear
  else
    .error (.notAFraction j)

/-- The rationals that the items of an array stand for. -/
def fractionsOfJson (j : Json) : Except DocumentError (List Rat) :=
  match j.items? with
  | some items => items.mapM fractionOfJson
  | none => .error (.notAnArray j)

/-! ## Matrices, vectors and stores -/

def vectorToJson (v : RatVector) : Json := .array (v.entries.map fractionToJson)

def matrixToJson (m : RatMatrix) : Json :=
  .object
    [("augmented", .bool m.augmented),
      ("values", .array (m.rows.map fun row => .array (row.map fractionToJson)))]

def vectorOfJson (j : Json) : Except DocumentError RatVector := do
  let entries ← fractionsOfJson j
  (RatVector.ofList entries).mapError .linear

def matrixOfJson (j : Json) : Except DocumentError RatMatrix := do
  let augmented := ((j.member? "augmented").bind Json.bool?).getD false
  let some items := (j.member? "values").bind Json.items? | throw .missingRows
  let rows ← items.mapM fractionsOfJson
  (RatMatrix.ofRows rows augmented).mapError .linear

namespace Store

/-- The document of a store. -/
def toJson (s : Store) : Json :=
  .object
    [("matrices", .object (s.namedMatrices.map fun (name, m) => (name, matrixToJson m))),
      ("vectors", .object (s.namedVectors.map fun (name, v) => (name, vectorToJson v)))]

/-- Adds a value that a document holds under a name. -/
def addRead (s : Store) (place name : String) (value : Except DocumentError Stored) :
    Except DocumentError Store := do
  let x ← DocumentError.locate (place ++ " " ++ name) value
  (s.insert name x).mapError .badName

/-- The members of a member of a document, of which there are none if it is missing. -/
def sectionOf (j : Json) (member : String) : Except DocumentError (List (String × Json)) :=
  match j.member? member with
  | none => .ok []
  | some found =>
    match found.members? with
    | some members => .ok members
    | none => .error (.notAnObject member)

/-- The store of a document. -/
def ofJson (j : Json) : Except DocumentError Store := do
  let matrices ← sectionOf j "matrices"
  let s ← matrices.foldlM
    (fun s (name, entry) => s.addRead "matrix" name ((matrixOfJson entry).map .matrix)) empty
  let vectors ← sectionOf j "vectors"
  vectors.foldlM
    (fun s (name, entry) => s.addRead "vector" name ((vectorOfJson entry).map .vector)) s

end Store

end ExactLinear
