import ExactLinear.RatMatrix.Determinant
import ExactLinear.Transcript

/-!
# Reduction to reduced row-echelon form

A matrix is reduced by Gauss-Jordan elimination over its variable columns; the constants of an
augmented matrix are carried along and are never pivoted on. The row operations are the primary
datum: `forwardOps` chooses those that bring every pivot to one and clear the column below it,
`backwardOps` those that clear above. The reduced matrix and the transcript are both what these
operations make of the rows. A buffer that is changed and logged operation by operation comes to the
same (`Checked.reduce_eq`).

Rows whose variable part is zero count as zero rows, so a contradiction `0 = c` may stand at the
bottom of a reduced matrix.
-/

namespace ExactLinear

namespace RatMatrix

/-- The column of the first entry of a row, among the first `vars`, that is not zero. -/
def lead? (vars : Nat) (row : List Rat) : Option Nat := leadingIndex? (row.take vars)

/-- Whether exactly one row has an entry other than zero in column `c`. -/
def isUnitColumn (rows : List (List Rat)) (c : Nat) : Bool :=
  rows.countP (·.getD c 0 ≠ 0) = 1

/-- Whether the rows of a list, part of the rows `all`, lead with a one in columns that ascend from
`least` on and are otherwise zero, and whether the rows without a lead come last. -/
def leadsAscend (vars : Nat) (all : List (List Rat)) (least : Nat) : List (List Rat) → Bool
  | [] => true
  | row :: rest =>
    match lead? vars row with
    | none => rest.all fun r => (lead? vars r).isNone
    | some c =>
      least ≤ c && row.getD c 0 = 1 && isUnitColumn all c && leadsAscend vars all (c + 1) rest

/-- Whether the matrix is in reduced row-echelon form over its variable columns. -/
def isReduced (m : RatMatrix) : Bool := leadsAscend m.variableCount m.rows 0 m.rows

end RatMatrix

namespace Reduction

open RatMatrix

/-- The subtractions that clear column `c` in the target rows, by means of a pivot row with a one
there. A target that is clear already is passed over. -/
def clearing (rows : List (List Rat)) (pivot c : Nat) (targets : List Nat) : List RowOp :=
  targets.filterMap fun k =>
    if entryAt rows k c = 0 then none else some (.subtract k pivot (entryAt rows k c))

/-- The operations for one pivot: bring row `p` up to row `r`, divide it by its entry in column `j`,
and clear that column below. Operations that would change nothing are left out. -/
def pivotOps (rows : List (List Rat)) (r p j : Nat) : List RowOp :=
  let exchange := if p = r then [] else [RowOp.swap r p]
  let exchanged := RowOp.actAll rows exchange
  let pivot := entryAt exchanged r j
  let division := if pivot = 1 then [] else [RowOp.divide r pivot]
  let divided := RowOp.actAll exchanged division
  exchange ++ division ++
    clearing divided r j (List.range' (r + 1) (rows.length - (r + 1)))

/-- The operations of the forward pass over the given columns, where `r` rows hold a pivot
already. -/
def forwardOps : List Nat → List (List Rat) → Nat → List RowOp
  | [], _, _ => []
  | j :: columns, rows, r =>
    match pivotRow? rows r j with
    | none => forwardOps columns rows r
    | some p =>
      let ops := pivotOps rows r p j
      ops ++ forwardOps columns (RowOp.actAll rows ops) (r + 1)

/-- The operations of the backward pass over rows `n - 1` down to `0`: above the lead of each row
its column is cleared. -/
def backwardOps (vars : Nat) : Nat → List (List Rat) → List RowOp
  | 0, _ => []
  | i + 1, rows =>
    match lead? vars (rows.getD i []) with
    | none => backwardOps vars i rows
    | some c =>
      let ops := clearing rows i c (List.range i)
      ops ++ backwardOps vars i (RowOp.actAll rows ops)

/-- The row operations that reduce a matrix. -/
def operations (m : RatMatrix) : List RowOp :=
  let forward := forwardOps (List.range m.variableCount) m.rows 0
  forward ++ backwardOps m.variableCount m.rows.length (RowOp.actAll m.rows forward)

/-- Each operation, followed by a snapshot of the matrix that it leaves behind. -/
def steps (m : RatMatrix) : List RowOp → Transcript
  | [] => []
  | op :: ops =>
    let next := { m with rows := RowOp.act m.rows op }
    .operation op :: .matrix "" next :: steps next ops

end Reduction

/-- A reduced matrix with the steps that led to it. -/
structure Reduction where
  matrix : RatMatrix
  transcript : Transcript
deriving DecidableEq, Repr

/-- Reduces a matrix. One that is reduced already is returned as it is. -/
def RatMatrix.reduce (m : RatMatrix) : Reduction :=
  if m.isReduced then
    { matrix := m
      transcript :=
        [.matrix "Initial matrix" m,
          .note "The matrix is already in reduced row-echelon form."] }
  else
    let ops := Reduction.operations m
    let reduced := { m with rows := RowOp.actAll m.rows ops }
    { matrix := reduced
      transcript :=
        .matrix "Initial matrix" m :: Reduction.steps m ops ++
          [.matrix "Reduced row-echelon form" reduced] }

end ExactLinear
