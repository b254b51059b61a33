import ExactLinear.RatVector

/-!
# Matrices of rationals

A `RatMatrix` holds its entries row by row and keeps its shape beside them, so that a shape is read
without a walk through the rows. `WellFormed` says that the two agree; `ofRows` checks it, and every
operation preserves it. The flag `augmented` marks the last column as the constants of a linear
system.

Indices count from zero. An operation that is given an index or an operand that does not fit answers
with a `LinearError`.
-/

namespace ExactLinear

/-- A matrix, with the mark that says whether its last column holds the constants of a system. -/
structure RatMatrix where
  shape : Shape
  rows : List (List Rat)
  augmented : Bool
deriving DecidableEq, Repr

namespace RatMatrix

/-- The entries fill the shape exactly, and there is at least one of them. -/
def WellFormed (m : RatMatrix) : Prop :=
  0 < m.shape.rows ∧ 0 < m.shape.cols ∧ m.rows.length = m.shape.rows ∧
    ∀ row ∈ m.rows, row.length = m.shape.cols

instance (m : RatMatrix) : Decidable m.WellFormed :=
  inferInstanceAs (Decidable (_ ∧ _ ∧ _ ∧ ∀ row ∈ m.rows, _))

/-- The matrix with the given rows: there is a first row, it has an entry, and the others are as
long. -/
def ofRows (rows : List (List Rat)) (augmented : Bool) : Except LinearError RatMatrix :=
  match rows with
  | [] | [] :: _ => .error .empty
  | first :: _ =>
    match rows.find? (·.length ≠ first.length) with
    | some bad => .error (.dimensionMismatch ⟨1, first.length⟩ ⟨1, bad.length⟩)
    | none => .ok ⟨⟨rows.length, first.length⟩, rows, augmented⟩

/-- The identity with `n` rows, which exists unless `n` is zero. -/
def identity (n : Nat) : Except LinearError RatMatrix :=
  ofRows ((List.range n).map fun i => (List.range n).map fun j => if i = j then 1 else 0) false

/-- Equality of shape and entries, whatever the flags are. -/
def sameEntries (a b : RatMatrix) : Bool := a.shape = b.shape && a.rows = b.rows

def isSquare (m : RatMatrix) : Bool := m.shape.rows = m.shape.cols

/-- The number of unknowns: the constants of an augmented matrix do not count. -/
def variableCount (m : RatMatrix) : Nat :=
  if m.augmented then m.shape.cols - 1 else m.shape.cols

/-! ## Entries, rows and columns -/

/-- The entry in row `i` and column `j`, or zero outside of the rows. The algorithms read within the
rows only (`Checked.entry_eq`). -/
def entryAt (rows : List (List Rat)) (i j : Nat) : Rat := (rows.getD i []).getD j 0

/-- The entry in row `i` and column `j`. -/
def get (m : RatMatrix) (i j : Nat) : Except LinearError Rat :=
  match m.rows[i]? >>= fun row => row[j]? with
  | some x => .ok x
  | none => .error (.indexOutOfRange i j m.shape)

/-- Row `i`. -/
def row (m : RatMatrix) (i : Nat) : Except LinearError (List Rat) :=
  match m.rows[i]? with
  | some r => .ok r
  | none => .error (.indexOutOfRange i 0 m.shape)

/-- The entries of column `j`, from top to bottom. -/
def column (m : RatMatrix) (j : Nat) : List Rat := m.rows.map (·.getD j 0)

/-- The same entries with another flag. -/
def withAugmented (m : RatMatrix) (augmented : Bool) : RatMatrix := { m with augmented }

/-- Replaces column `j`. -/
def withColumn (m : RatMatrix) (j : Nat) (v : RatVector) : Except LinearError RatMatrix :=
  if v.length ≠ m.shape.rows then
    .error (.dimensionMismatch m.shape v.shape)
  else if m.shape.cols ≤ j then
    .error (.indexOutOfRange 0 j m.shape)
  else
    .ok { m with rows := List.zipWith (fun row x => row.set j x) m.rows v.entries }

/-- Removes column `j`. What remains is no longer a system. -/
def withoutColumn (m : RatMatrix) (j : Nat) : Except LinearError RatMatrix :=
  if m.shape.cols ≤ j then
    .error (.indexOutOfRange 0 j m.shape)
  else
    ofRows (m.rows.map (·.eraseIdx j)) false

/-- Removes row `i` and column `j`. -/
def minor (m : RatMatrix) (i j : Nat) : Except LinearError RatMatrix :=
  if m.shape.rows ≤ i ∨ m.shape.cols ≤ j then
    .error (.indexOutOfRange i j m.shape)
  else
    ofRows ((m.rows.eraseIdx i).map (·.eraseIdx j)) false

/-- The coefficients of an augmented matrix, as a plain matrix. -/
def coefficients (m : RatMatrix) : Except LinearError RatMatrix :=
  if m.augmented then m.withoutColumn (m.shape.cols - 1) else .error .notAugmented

/-- The constants of an augmented matrix. -/
def constants (m : RatMatrix) : Except LinearError RatVector :=
  if m.augmented then RatVector.ofList (m.column (m.shape.cols - 1)) else .error .notAugmented

end RatMatrix

end ExactLinear
