import ExactLinear.RatMatrix.Basic
import ExactLinear.Text.Padding

/-!
# Matrices as text

A matrix is written one row to a line. All cells have the width of the widest entry and are aligned
to the right; a bar stands before the constants of an augmented matrix.
-/

namespace ExactLinear.RatMatrix

/-- The width of the widest entry. -/
def cellWidth (rows : List (List Rat)) : Nat :=
  (rows.flatten.map (Literal.write · |>.length)).foldl max 0

/-- What stands before cell `j` when the bar belongs before cell `bar`. -/
def separator (bar j : Nat) : String :=
  if j = bar then " | " else if j = 0 then " " else "  "

/-- One line: the cells of a row, each after its separator. -/
def renderRow (width bar : Nat) (row : List Rat) : String :=
  let cells := row.mapIdx fun j x => separator bar j ++ Text.padLeft width (Literal.write x)
  "[" ++ String.join cells ++ " ]"

/-- The lines of a matrix. -/
def renderLines (m : RatMatrix) : List String :=
  m.rows.map (renderRow (cellWidth m.rows) m.variableCount)

/-- The text of a matrix. -/
def text (m : RatMatrix) : String := "\n".intercalate m.renderLines

/-- The text of a matrix under its shape and its flag. -/
def description (m : RatMatrix) : String :=
  "Matrix " ++ m.shape.text ++ " (augmented: " ++ toString m.augmented ++ ")\n" ++ m.text

end ExactLinear.RatMatrix
