import ExactLinear.System

/-!
# Cramer's rule

A square system whose coefficient determinant is not zero has one solution: variable `i` is the
ratio of two determinants, that of the coefficients with column `i` replaced by the constants and
that of the coefficients themselves.
-/

namespace ExactLinear.RatMatrix

/-- The value of variable `i`, with the steps that lead to it. -/
def cramerStep (a : RatMatrix) (b : RatVector) (d : Rat) (i : Nat) :
    Except LinearError (Rat × Transcript) := do
  let replaced ← a.withColumn i b
  let di ← replaced.determinant
  let x := di / d
  let index := toString (i + 1)
  return (x,
    [.matrix ("A_" ++ index) replaced,
      .note ("det(A_" ++ index ++ ") = " ++ Literal.write di),
      .note ("x_" ++ index ++ " = " ++ Literal.write di ++ " / " ++ Literal.write d ++ " = "
        ++ Literal.write x)])

/-- Solves a square augmented system by ratios of determinants. -/
def cramer (m : RatMatrix) : Except LinearError (Solution × Transcript) := do
  if !m.augmented then throw .notAugmented
  let a ← m.coefficients
  if m.shape.rows ≠ m.variableCount then throw (.notSquare a.shape)
  let b ← m.constants
  let d ← a.determinant
  if d = 0 then throw .cramerNotApplicable
  let solved ← (List.range m.variableCount).mapM (cramerStep a b d)
  let solution := Solution.unique (solved.map (·.1))
  return (solution,
    [.matrix "A" a, .vector "b" b, .note ("det(A) = " ++ Literal.write d)]
      ++ solved.flatMap (·.2) ++ [.note ("Solution:\n" ++ solution.text)])

end ExactLinear.RatMatrix
