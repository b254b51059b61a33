import ExactLinear.Solution
import ExactLinear.Transcript

/-!
# Worked operations

A worked operation takes operands with their names and answers with an `Outcome`: the value, a short
header that names what was computed, and the transcript that leads to it.
-/

namespace ExactLinear

/-- A value with the name by which the user knows it. -/
structure Named (α : Type) where
  name : String
  value : α
deriving DecidableEq, Repr

/-- What an operation can result in. -/
inductive Value where
  | scalar (r : Rat)
  | vector (v : RatVector)
  | matrix (m : RatMatrix)
  | solution (s : Solution)
deriving DecidableEq, Repr

/-- The text of a value. -/
def Value.text : Value → String
  | .scalar r => Literal.write r
  | .vector v => v.text
  | .matrix m => m.text
  | .solution s => s.text

/-- A value with the header and the transcript of its computation. -/
structure Outcome where
  header : String
  transcript : Transcript
  result : Value
deriving DecidableEq, Repr

namespace Worked

/-- The snapshot of a named matrix. -/
def showMatrix (a : Named RatMatrix) : Entry := .matrix a.name a.value

/-- The snapshot of a named vector. -/
def showVector (v : Named RatVector) : Entry := .vector v.name v.value

/-- An outcome whose transcript ends with its matrix, under the header. -/
def matrixOutcome (header : String) (steps : Transcript) (result : RatMatrix) : Outcome where
  header := header
  transcript := steps ++ [.matrix header result]
  result := .matrix result

/-- An outcome whose transcript ends with its vector, after the header. -/
def vectorOutcome (header : String) (steps : Transcript) (result : RatVector) : Outcome where
  header := header
  transcript := steps ++ [.vector header result]
  result := .vector result

/-- A rational between parentheses. -/
def factorText (r : Rat) : String := "(" ++ Literal.write r ++ ")"

/-- The sum of the products of corresponding entries, written out. -/
def productsText (a b : List Rat) : String :=
  " + ".intercalate (List.zipWith (fun x y => factorText x ++ factorText y) a b)

end Worked

end ExactLinear
