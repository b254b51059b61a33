import ExactLinear.Reduction
import ExactLinear.Solution

/-!
# Linear systems

An augmented matrix `[A | b]` is the system `A x = b`. `solve` reads its solutions off the reduced
matrix and `residual` measures how far an assignment is from being one. Variables count from zero.
-/

namespace ExactLinear

/-- A row of a reduced matrix, solved for its leading variable `c`: the constant less the multiples
of the free variables. -/
def AffineExpr.ofRow (vars : Nat) (free : List Nat) (c : Nat) (row : List Rat) : AffineExpr where
  constant := row.getD vars 0
  terms := free.filterMap fun k =>
    if c < k ∧ row.getD k 0 ≠ 0 then some (k, -row.getD k 0) else none

namespace RatMatrix

/-- The first row that reads `0 = c` with `c` other than zero, with that `c`. -/
def contradiction? (vars : Nat) (rows : List (List Rat)) : Option (Nat × Rat) :=
  (rows.findIdx? fun row => (lead? vars row).isNone && row.getD vars 0 ≠ 0).map
    fun i => (i, entryAt rows i vars)

/-- The leading variables with their rows, from top to bottom. -/
def leadingRows (vars : Nat) (rows : List (List Rat)) : List (Nat × List Rat) :=
  rows.filterMap fun row => (lead? vars row).map (·, row)

/-- Reads the solutions off the rows of a reduced system with `vars` variables. The expressions need
not be sorted by their variables: they stand in the order of their rows, and in a reduced matrix the
lead of each row is to the right of the lead in the row before. -/
def classify (vars : Nat) (rows : List (List Rat)) : Solution :=
  match contradiction? vars rows with
  | some (row, constant) => .inconsistent row constant
  | none =>
    let basic := leadingRows vars rows
    let free := (List.range vars).filter fun j => basic.all (·.1 ≠ j)
    if free.isEmpty then
      .unique ((List.range vars).map fun j =>
        match basic.find? (·.1 = j) with
        | some (_, row) => row.getD vars 0
        | none => 0)
    else
      .infinite free (basic.map fun (c, row) => (c, AffineExpr.ofRow vars free c row))

/-- The solutions of an augmented system. -/
def solve (m : RatMatrix) : Except LinearError Solution :=
  if m.augmented then
    .ok (classify m.variableCount m.reduce.matrix.rows)
  else
    .error .notAugmented

/-- What `A x - b` is for each row of an augmented system and an assignment `x`. -/
def residual (m : RatMatrix) (values : List Rat) : Except LinearError (List Rat) :=
  let vars := m.variableCount
  if !m.augmented then
    .error .notAugmented
  else if values.length ≠ vars then
    .error (.dimensionMismatch m.shape (.column values.length))
  else
    .ok (m.rows.map fun row => dotProduct (row.take vars) values - row.getD vars 0)

end RatMatrix

end ExactLinear
