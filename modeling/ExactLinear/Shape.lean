/-!
# Shapes

A `Shape` is what an operand says about itself when it does not fit its partner.
-/

namespace ExactLinear

/-- The number of rows and of columns of an operand. -/
structure Shape where
  rows : Nat
  cols : Nat
deriving DecidableEq, Repr

namespace Shape

/-- The shape of a vector of length `n`, which counts as one column. -/
def column (n : Nat) : Shape := ⟨n, 1⟩

/-- Rows and columns with a multiplication sign between them. -/
def text (s : Shape) : String := toString s.rows ++ "×" ++ toString s.cols

end Shape

end ExactLinear
