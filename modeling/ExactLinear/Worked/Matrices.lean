import ExactLinear.RatMatrix.Determinant
import ExactLinear.Worked.Outcome

/-!
# Worked operations on matrices

Sums, products, multiples, the transpose, the determinant, the adjugate and the inverse.
-/

namespace ExactLinear.Worked

/-- A sum or a difference, with the sign between the operands. -/
def combineMatrices (sign : String) (f : RatMatrix → RatMatrix → Except LinearError RatMatrix)
    (a b : Named RatMatrix) : Except LinearError Outcome := do
  let result ← f a.value b.value
  let header := a.name ++ " " ++ sign ++ " " ++ b.name
  return matrixOutcome header [showMatrix a, showMatrix b] result

def addMatrices : Named RatMatrix → Named RatMatrix → Except LinearError Outcome :=
  combineMatrices "+" RatMatrix.add

def subtractMatrices : Named RatMatrix → Named RatMatrix → Except LinearError Outcome :=
  combineMatrices "-" RatMatrix.sub

/-- The note on entry `(i, j)` of a product: the sum of products that it is, and its value. -/
def productNote (a b result : RatMatrix) (i j : Nat) : String :=
  "c_" ++ toString (i + 1) ++ toString (j + 1) ++ " = "
    ++ productsText (a.rows.getD i []) (b.column j) ++ " = "
    ++ Literal.write (RatMatrix.entryAt result.rows i j)

/-- The product, with a note on every entry. -/
def multiplyMatrices (a b : Named RatMatrix) : Except LinearError Outcome := do
  let result ← a.value.mul b.value
  let notes := (List.range a.value.shape.rows).flatMap fun i =>
    (List.range b.value.shape.cols).map fun j => Entry.note (productNote a.value b.value result i j)
  return matrixOutcome (a.name ++ " · " ++ b.name) ([showMatrix a, showMatrix b] ++ notes) result

def scaleMatrix (k : Rat) (a : Named RatMatrix) : Outcome :=
  matrixOutcome (Literal.writeFactor k ++ "·" ++ a.name)
    [showMatrix a, .note ("Every entry is multiplied by " ++ Literal.write k ++ ".")]
    (a.value.scale k)

def transpose (a : Named RatMatrix) : Outcome :=
  matrixOutcome (a.name ++ "^T") [showMatrix a, .note "Rows become columns."] a.value.transpose

/-- The determinant, read off the diagonal of an upper triangular form. -/
def determinant (a : Named RatMatrix) : Except LinearError Outcome := do
  let d ← a.value.determinant
  let (triangular, odd) ← a.value.triangular
  let header := "det(" ++ a.name ++ ")"
  let flip := if odd then [Entry.note "An odd number of row swaps flips the sign."] else []
  let signedDiagonal :=
    (if odd then "-" else "") ++ String.join (triangular.diagonal.map factorText)
  return {
    header
    transcript :=
      [showMatrix a, .matrix "Upper triangular form" triangular] ++ flip ++
        [.note (header ++ " = " ++ signedDiagonal ++ " = " ++ Literal.write d)]
    result := .scalar d }

def adjugate (a : Named RatMatrix) : Except LinearError Outcome := do
  let result ← a.value.adjugate
  return matrixOutcome ("adj(" ++ a.name ++ ")")
    [showMatrix a,
      .note "Entry (i, j) is (-1)^(i+j) times the minor without row j and column i."]
    result

/-- The inverse, as the adjugate divided by the determinant. -/
def invert (a : Named RatMatrix) : Except LinearError Outcome := do
  let i ← a.value.inverse
  let header := a.name ++ "^\x7b-1\x7d"
  let adjugate := "adj(" ++ a.name ++ ")"
  return matrixOutcome header
    [showMatrix a,
      .note ("det(" ++ a.name ++ ") = " ++ Literal.write i.determinant),
      .matrix adjugate i.adjugate,
      .note (header ++ " = (1 / " ++ Literal.writeFactor i.determinant ++ ") · " ++ adjugate)]
    i.inverse

end ExactLinear.Worked
