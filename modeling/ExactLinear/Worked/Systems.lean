import ExactLinear.Cramer
import ExactLinear.Worked.Outcome

/-!
# Worked reductions and systems

The reduced row-echelon form, and the solution of a system by reduction or by determinant ratios.
-/

namespace ExactLinear.Worked

/-- The reduced row-echelon form. -/
def reduce (a : Named RatMatrix) : Outcome where
  header := "rref(" ++ a.name ++ ")"
  transcript := a.value.reduce.transcript
  result := .matrix a.value.reduce.matrix

/-- The sentence before the text of a solution. -/
def verdict : Solution → String
  | .unique _ => "The system has a unique solution:"
  | .infinite _ _ => "The system has infinitely many solutions:"
  | .inconsistent _ _ => "The system is inconsistent."

/-- The solutions of a system, read off its reduced form. -/
def solve (system : Named RatMatrix) : Except LinearError Outcome := do
  let reduction := system.value.reduce
  let solution ← reduction.matrix.solve
  return {
    header := "solve(" ++ system.name ++ ")"
    transcript := reduction.transcript ++ [.note (verdict solution), .note solution.text]
    result := .solution solution }

/-- The solution of a square system by determinant ratios. -/
def cramer (system : Named RatMatrix) : Except LinearError Outcome := do
  let (solution, transcript) ← system.value.cramer
  return {
    header := "cramer(" ++ system.name ++ ")"
    transcript
    result := .solution solution }

end ExactLinear.Worked
