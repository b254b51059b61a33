import ExactLinear.RatMatrix.Render
import ExactLinear.RowOp

/-!
# Transcripts

A `Transcript` records how a result was reached: snapshots of matrices and vectors, row operations
and notes, in the order in which they happened. `render` writes it down. `replay` performs its row
operations on another matrix.
-/

namespace ExactLinear

/-- One step of a transcript. -/
inductive Entry where
  | matrix (label : String) (value : RatMatrix)
  | vector (label : String) (value : RatVector)
  | operation (op : RowOp)
  | note (text : String)
deriving DecidableEq, Repr

/-- The steps that led to a result. -/
abbrev Transcript := List Entry

/-- The text of a step, without the line break at its end. A label stands above a matrix and before
a vector; an empty label is left out. -/
def Entry.text : Entry → String
  | .matrix label m => (if label.isEmpty then "" else label ++ ":\n") ++ m.text
  | .vector label v => (if label.isEmpty then "" else label ++ " = ") ++ v.text
  | .operation op => op.text
  | .note text => text

namespace Transcript

/-- The text of all steps, each with a line break at its end. -/
def render (t : Transcript) : String := String.join (t.map (·.text ++ "\n"))

/-- The row operations among the steps, in order. -/
def operations (t : Transcript) : List RowOp :=
  t.filterMap fun
    | .operation op => some op
    | _ => none

/-- Performs the row operations on the rows of `initial`, one after the other. -/
def replay (t : Transcript) (initial : RatMatrix) : Except LinearError RatMatrix := do
  let rows ← t.operations.foldlM (fun rows op => op.apply rows) initial.rows
  RatMatrix.ofRows rows initial.augmented

end Transcript

end ExactLinear
