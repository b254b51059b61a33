import ExactLinear.RatMatrix.Algebra
import ExactLinear.RowOp

/-!
# Determinant, adjugate and inverse

The determinant is read off an upper triangular form. `triangular` clears the columns from left to
right; a column without a pivot is left as it is and puts a zero on the diagonal. The inverse is the
adjugate divided by the determinant.
-/

namespace ExactLinear.RatMatrix

/-- The row, from row `r` downwards, whose entry in column `j` is largest in absolute value, the
first one among equals. There is none if all these entries are zero. -/
def pivotRow? (rows : List (List Rat)) (r j : Nat) : Option Nat :=
  let best := (List.range' (r + 1) (rows.length - (r + 1))).foldl
    (fun p i => if (entryAt rows p j).abs < (entryAt rows i j).abs then i else p) r
  if entryAt rows best j = 0 then none else some best

/-- The subtractions that clear column `j` below row `j`, whose entry there is not zero. -/
def clearBelow (rows : List (List Rat)) (j : Nat) : List RowOp :=
  (List.range' (j + 1) (rows.length - (j + 1))).filterMap fun k =>
    if entryAt rows k j = 0 then none
    else some (.subtract k j (entryAt rows k j / entryAt rows j j))

/-- Clears the given columns in turn. The second component tells whether the number of exchanged
pairs of rows is odd. -/
def triangularRows : List Nat → List (List Rat) × Bool → List (List Rat) × Bool
  | [], state => state
  | j :: columns, (rows, odd) =>
    match pivotRow? rows j j with
    | none => triangularRows columns (rows, odd)
    | some p =>
      let swapped := if p = j then rows else RowOp.act rows (.swap p j)
      triangularRows columns (RowOp.actAll swapped (clearBelow swapped j), odd != (p != j))

/-- An upper triangular form of a square matrix, and whether an odd number of pairs of rows was
exchanged on the way. -/
def triangular (m : RatMatrix) : Except LinearError (RatMatrix × Bool) :=
  if m.isSquare then
    let (rows, odd) := triangularRows (List.range m.shape.rows) (m.rows, false)
    .ok ({ m with rows }, odd)
  else
    .error (.notSquare m.shape)

/-- The entries on the diagonal of a square matrix. -/
def diagonal (m : RatMatrix) : List Rat :=
  (List.range m.shape.rows).map fun i => entryAt m.rows i i

/-- The product of the entries of a list. -/
def product (l : List Rat) : Rat := l.foldr (· * ·) 1

/-- The determinant of a square matrix that is not augmented. -/
def determinant (m : RatMatrix) : Except LinearError Rat :=
  if m.augmented then
    .error (.notSquare m.shape)
  else do
    let (t, odd) ← m.triangular
    return if odd then -product t.diagonal else product t.diagonal

/-- The sign of position `(i, j)` on the chessboard that starts with plus. -/
def withSign (k : Nat) (x : Rat) : Rat := if k % 2 = 0 then x else -x

/-- The transposed matrix of cofactors: entry `(i, j)` is up to its sign the determinant of what
remains without row `j` and column `i`. -/
def adjugate (m : RatMatrix) : Except LinearError RatMatrix :=
  if !m.isSquare then
    .error (.notSquare m.shape)
  else if m.shape.rows = 1 then
    identity 1
  else do
    let n := m.shape.rows
    let rows ← (List.range n).mapM fun i => (List.range n).mapM fun j => do
      let d ← (← m.minor j i).determinant
      return withSign (i + j) d
    ofRows rows false

/-- An inverse together with what it was computed from. -/
structure Inverse where
  inverse : RatMatrix
  adjugate : RatMatrix
  determinant : Rat
deriving DecidableEq, Repr

/-- The inverse of a matrix, taken as a plain one. -/
def inverse (m : RatMatrix) : Except LinearError Inverse := do
  let d ← (m.withAugmented false).determinant
  if d = 0 then throw .singular
  let adj ← m.adjugate
  return ⟨adj.scale d⁻¹, adj, d⟩

end ExactLinear.RatMatrix
