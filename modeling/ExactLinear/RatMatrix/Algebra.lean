import ExactLinear.RatMatrix.Basic

/-!
# Matrix algebra

Sums, multiples, products and the transpose. The result of an operation on two matrices is augmented
when the left operand is; a transpose never is.
-/

namespace ExactLinear.RatMatrix

/-- Combines two matrices of one shape entry by entry. -/
def zipWith (f : Rat → Rat → Rat) (a b : RatMatrix) : Except LinearError RatMatrix :=
  if a.shape = b.shape then
    .ok { a with rows := List.zipWith (List.zipWith f) a.rows b.rows }
  else
    .error (.dimensionMismatch a.shape b.shape)

def add (a b : RatMatrix) : Except LinearError RatMatrix := zipWith (· + ·) a b

def sub (a b : RatMatrix) : Except LinearError RatMatrix := zipWith (· - ·) a b

/-- Multiplies every entry by `k`. -/
def scale (k : Rat) (a : RatMatrix) : RatMatrix :=
  { a with rows := a.rows.map (·.map (k * ·)) }

/-- The matrix product: entry `(i, j)` is row `i` of `a` times column `j` of `b`. -/
def mul (a b : RatMatrix) : Except LinearError RatMatrix :=
  if a.shape.cols = b.shape.rows then
    .ok { a with
      shape := ⟨a.shape.rows, b.shape.cols⟩
      rows := a.rows.map fun row =>
        (List.range b.shape.cols).map fun j => dotProduct row (b.column j) }
  else
    .error (.dimensionMismatch a.shape b.shape)

/-- The product with a column vector. -/
def mulVector (a : RatMatrix) (v : RatVector) : Except LinearError RatVector :=
  if a.shape.cols = v.length then
    RatVector.ofList (a.rows.map (dotProduct · v.entries))
  else
    .error (.dimensionMismatch a.shape v.shape)

/-- Rows become columns. -/
def transpose (a : RatMatrix) : RatMatrix where
  shape := ⟨a.shape.cols, a.shape.rows⟩
  rows := (List.range a.shape.cols).map a.column
  augmented := false

end ExactLinear.RatMatrix
