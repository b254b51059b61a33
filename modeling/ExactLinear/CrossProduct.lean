import ExactLinear.RatMatrix.Determinant

/-!
# The generalized cross product

In dimension `n` a cross product takes `n - 1` vectors and is orthogonal to each of them. Its
components are the cofactors of the first row of a matrix whose other rows are the operands. In two
dimensions the single operand is turned by a right angle.
-/

namespace ExactLinear.RatVector

/-- The cross product of `v` and the vectors after it. -/
def cross (v : RatVector) (others : List RatVector) : Except LinearError RatVector :=
  let n := v.length
  match others.find? (·.length ≠ n) with
  | some bad => .error (.dimensionMismatch v.shape bad.shape)
  | none =>
    if n < 2 ∨ others.length + 1 ≠ n - 1 then
      .error (.dimensionMismatch ⟨others.length + 1, n⟩ ⟨n - 1, n⟩)
    else
      match v.entries with
      | [x, y] => ofList [-y, x]
      | _ => do
        let operands ← RatMatrix.ofRows (v.entries :: others.map entries) false
        let components ← (List.range n).mapM fun i => do
          let d ← (← operands.withoutColumn i).determinant
          return RatMatrix.withSign i d
        ofList components

end ExactLinear.RatVector
