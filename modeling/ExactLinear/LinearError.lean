import ExactLinear.Shape
import ExactLinear.Text.Quoted

/-!
# Failures of the exact engine

`LinearError` lists the causes for which an exact computation refuses its operands. The wording of a
cause is in `LinearError.message` and nowhere else.
-/

namespace ExactLinear

/-- Why an exact computation has no result. -/
inductive LinearError where
  /-- The shapes of two operands do not fit. -/
  | dimensionMismatch (left right : Shape)
  /-- A square matrix was needed. -/
  | notSquare (shape : Shape)
  /-- The matrix has no inverse. -/
  | singular
  /-- Determinant ratios do not exist, because the coefficient determinant is zero. -/
  | cramerNotApplicable
  /-- The matrix has no column of constants. -/
  | notAugmented
  | divisionByZero
  /-- The text is no rational literal. -/
  | malformedLiteral (text : String)
  /-- There is no entry at this place of an operand of this shape. -/
  | indexOutOfRange (row col : Nat) (shape : Shape)
  /-- A vector or a matrix without entries. -/
  | empty
deriving DecidableEq, Repr

/-- The message that a user reads. -/
def LinearError.message : LinearError → String
  | .dimensionMismatch left right =>
    "Dimension mismatch: " ++ left.text ++ " and " ++ right.text ++ " are not compatible"
  | .notSquare shape => "Matrix must be square, got " ++ shape.text
  | .singular => "Matrix is singular (determinant is 0)"
  | .cramerNotApplicable =>
    "Cramer's rule needs a non-zero coefficient determinant; use Gauss-Jordan"
  | .notAugmented => "Matrix is not augmented"
  | .divisionByZero => "Division by zero"
  | .malformedLiteral text => "Malformed rational literal: " ++ Text.quoted text
  | .indexOutOfRange row col shape =>
    "Index (" ++ toString row ++ ", " ++ toString col ++ ") out of range for " ++ shape.text
  | .empty => "Vectors and matrices need at least one entry"

end ExactLinear
