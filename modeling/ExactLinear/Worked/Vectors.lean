import ExactLinear.Binary64.Decimal
import ExactLinear.Binary64.SquareRoot
import ExactLinear.CrossProduct
import ExactLinear.RatMatrix.Algebra
import ExactLinear.Worked.Outcome

/-!
# Worked operations on vectors

Sums, multiples, the products of a vector with a matrix and with other vectors, and its length. The
length is in general irrational: the result is its exact square, and a note has an approximation.
-/

namespace ExactLinear.Worked

/-- A sum or a difference, with the sign between the operands. -/
def combineVectors (sign : String) (f : RatVector → RatVector → Except LinearError RatVector)
    (u v : Named RatVector) : Except LinearError Outcome := do
  let result ← f u.value v.value
  let header := u.name ++ " " ++ sign ++ " " ++ v.name
  return vectorOutcome header [showVector u, showVector v] result

def addVectors : Named RatVector → Named RatVector → Except LinearError Outcome :=
  combineVectors "+" RatVector.add

def subtractVectors : Named RatVector → Named RatVector → Except LinearError Outcome :=
  combineVectors "-" RatVector.sub

def scaleVector (k : Rat) (v : Named RatVector) : Outcome :=
  vectorOutcome (Literal.writeFactor k ++ "·" ++ v.name) [showVector v] (v.value.scale k)

/-- The product of a matrix and a vector, with a note on every component. -/
def applyMatrix (a : Named RatMatrix) (v : Named RatVector) : Except LinearError Outcome := do
  let result ← a.value.mulVector v.value
  let notes := (List.zip a.value.rows result.entries).mapIdx fun i (row, y) =>
    Entry.note ("y_" ++ toString (i + 1) ++ " = " ++ productsText row v.value.entries ++ " = "
      ++ Literal.write y)
  return vectorOutcome (a.name ++ " · " ++ v.name) ([showMatrix a, showVector v] ++ notes) result

def dot (u v : Named RatVector) : Except LinearError Outcome := do
  let result ← u.value.dot v.value
  let header := u.name ++ " · " ++ v.name
  return {
    header
    transcript :=
      [showVector u, showVector v,
        .note (header ++ " = " ++ productsText u.value.entries v.value.entries ++ " = "
          ++ Literal.write result)]
    result := .scalar result }

/-- The header of a cross product: two operands have a sign between them. -/
def crossHeader : List String → String
  | [u, v] => u ++ " × " ++ v
  | names => "cross(" ++ ", ".intercalate names ++ ")"

/-- The cross product of all operands, of which there must be one. -/
def cross (operands : List (Named RatVector)) : Except LinearError Outcome :=
  match operands with
  | [] => .error .empty
  | first :: others => do
    let result ← first.value.cross (others.map (·.value))
    let note :=
      if first.value.length = 2 then
        "In two dimensions (x, y) is rotated to (-y, x)."
      else
        "Each component is a cofactor of the first row of the matrix whose first row holds the " ++
          "basis vectors and whose other rows are the operands."
    return vectorOutcome (crossHeader (operands.map (·.name)))
      (operands.map showVector ++ [.note note]) result

/-- The square of the length. -/
def normSquared (v : Named RatVector) : Outcome :=
  let result := v.value.normSquared
  let bars := "|" ++ v.name ++ "|"
  let squares := " + ".intercalate (v.value.entries.map fun x => factorText x ++ "^2")
  { header := bars ++ "^2"
    transcript :=
      [showVector v,
        .note (bars ++ "^2 = " ++ squares ++ " = " ++ Literal.write result),
        .note (bars ++ " ≈ " ++ (Magnitude.nearest result).sqrt.fixed 6)]
    result := .scalar result }

end ExactLinear.Worked
