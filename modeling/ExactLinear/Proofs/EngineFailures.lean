import ExactLinear.Proofs.CramerFailures
import ExactLinear.Proofs.CrossProducts
import ExactLinear.Proofs.Inverse

/-!
# The engine fails because of its operands

An operation of the engine may be refused because the shapes of its operands do not fit, because a
matrix is not square, not augmented or singular, or because there is nothing to compute with. These
are the causes `OfOperands`. The others belong to the inside of the engine: it divides by what it
has found to be a pivot, takes the row and the column of a minor from the shape, and never reads a
literal. So they do not occur when the operands are well-formed, and it is one lemma for each
operation that says so.
-/

namespace ExactLinear

/-- A cause that lies with the operands of an operation. -/
def LinearError.OfOperands : LinearError → Prop
  | .divisionByZero => False
  | .malformedLiteral _ => False
  | .indexOutOfRange _ _ _ => False
  | _ => True

open LinearError (OfOperands)

/-! ## Matrices -/

namespace RatMatrix

variable {m : RatMatrix}

theorem failsOnly_zipWith (f : ℚ → ℚ → ℚ) (a b : RatMatrix) :
    FailsOnly OfOperands (zipWith f a b) := by
  unfold zipWith
  split_ifs
  · exact .ok _
  · exact .error trivial

theorem failsOnly_mul (a b : RatMatrix) : FailsOnly OfOperands (a.mul b) := by
  unfold mul
  split_ifs
  · exact .ok _
  · exact .error trivial

theorem failsOnly_triangular (m : RatMatrix) : FailsOnly OfOperands m.triangular := by
  unfold triangular
  split_ifs
  · exact .ok _
  · exact .error trivial

theorem failsOnly_determinant (m : RatMatrix) : FailsOnly OfOperands m.determinant := by
  unfold determinant
  split_ifs
  · exact .error trivial
  · exact (failsOnly_triangular m).bind fun _ _ => .ok _

/-- The minors of a square matrix exist, so its adjugate does. -/
theorem failsOnly_adjugate (hm : m.WellFormed) : FailsOnly OfOperands m.adjugate := by
  by_cases hsquare : m.shape.rows = m.shape.cols
  · obtain ⟨⟨n, _⟩, rows, augmented⟩ := m
    obtain rfl : n = _ := hsquare
    obtain ⟨adj, hadj, -⟩ := (hm.represents_of_shape_eq rfl).adjugate hm.1
    rw [hadj]
    exact .ok adj
  · have hnot : (!m.isSquare) = true := by simp [isSquare, hsquare]
    rw [adjugate, if_pos hnot]
    exact .error trivial

theorem failsOnly_inverse (hm : m.WellFormed) : FailsOnly OfOperands m.inverse := by
  refine (failsOnly_determinant _).bind fun d _ => ?_
  dsimp only
  split_ifs
  · exact .error trivial
  · exact (failsOnly_adjugate hm).bind fun _ _ => .ok _

theorem failsOnly_solve (m : RatMatrix) : FailsOnly OfOperands m.solve := by
  unfold solve
  split_ifs
  · exact .ok _
  · exact .error trivial

theorem failsOnly_cramer (hm : m.WellFormed) : FailsOnly OfOperands m.cramer := by
  intro e he
  obtain ⟨-, rfl⟩ | rfl | rfl | ⟨-, rfl⟩ := cramer_error_cases hm he
  all_goals trivial

end RatMatrix

/-! ## Vectors -/

namespace RatVector

theorem failsOnly_ofList (entries : List ℚ) : FailsOnly OfOperands (ofList entries) := by
  unfold ofList
  split_ifs
  · exact .error trivial
  · exact .ok _

theorem failsOnly_mulVector (a : RatMatrix) (v : RatVector) :
    FailsOnly OfOperands (a.mulVector v) := by
  unfold RatMatrix.mulVector
  split_ifs
  · exact failsOnly_ofList _
  · exact .error trivial

theorem failsOnly_zipWith (f : ℚ → ℚ → ℚ) (u v : RatVector) :
    FailsOnly OfOperands (zipWith f u v) := by
  unfold zipWith
  split_ifs
  · exact .ok _
  · exact .error trivial

theorem failsOnly_dot (u v : RatVector) : FailsOnly OfOperands (u.dot v) := by
  unfold dot
  split_ifs
  · exact .ok _
  · exact .error trivial

/-- Operands that are not refused have all their cofactors. -/
theorem failsOnly_cross (u : RatVector) (others : List RatVector) :
    FailsOnly OfOperands (u.cross others) := by
  by_cases hfits : ∃ k, Rectangular k (k + 1) (operandRows u others)
  · obtain ⟨k, hrect⟩ := hfits
    rw [cross_eq hrect]
    exact .ok _
  · unfold cross
    dsimp only
    cases hfind : others.find? (·.length ≠ u.length) with
    | some bad => exact .error trivial
    | none =>
      dsimp only
      rw [if_pos]
      · exact .error trivial
      · by_contra hcount
        rw [not_or, not_lt, not_not] at hcount
        refine hfits (exists_rectangular_operandRows_iff.mpr ⟨hcount.1, fun v hv => ?_, hcount.2⟩)
        simpa using List.find?_eq_none.mp hfind v hv

end RatVector

/-! ## Worked operations -/

namespace Worked

variable {a : Named RatMatrix}

theorem failsOnly_combineMatrices (sign : String)
    {f : RatMatrix → RatMatrix → Except LinearError RatMatrix} {a b : Named RatMatrix}
    (hf : FailsOnly OfOperands (f a.value b.value)) :
    FailsOnly OfOperands (combineMatrices sign f a b) :=
  hf.bind fun _ _ => .ok _

theorem failsOnly_combineVectors (sign : String)
    {f : RatVector → RatVector → Except LinearError RatVector} {u v : Named RatVector}
    (hf : FailsOnly OfOperands (f u.value v.value)) :
    FailsOnly OfOperands (combineVectors sign f u v) :=
  hf.bind fun _ _ => .ok _

theorem failsOnly_multiplyMatrices (a b : Named RatMatrix) :
    FailsOnly OfOperands (multiplyMatrices a b) :=
  (RatMatrix.failsOnly_mul a.value b.value).bind fun _ _ => .ok _

theorem failsOnly_applyMatrix (a : Named RatMatrix) (v : Named RatVector) :
    FailsOnly OfOperands (applyMatrix a v) :=
  (RatVector.failsOnly_mulVector a.value v.value).bind fun _ _ => .ok _

theorem failsOnly_dot (u v : Named RatVector) : FailsOnly OfOperands (dot u v) :=
  (RatVector.failsOnly_dot u.value v.value).bind fun _ _ => .ok _

theorem failsOnly_determinant (a : Named RatMatrix) : FailsOnly OfOperands (determinant a) :=
  (RatMatrix.failsOnly_determinant a.value).bind fun _ _ =>
    (RatMatrix.failsOnly_triangular a.value).bind fun _ _ => .ok _

theorem failsOnly_adjugate (ha : a.value.WellFormed) : FailsOnly OfOperands (adjugate a) :=
  (RatMatrix.failsOnly_adjugate ha).bind fun _ _ => .ok _

theorem failsOnly_invert (ha : a.value.WellFormed) : FailsOnly OfOperands (invert a) :=
  (RatMatrix.failsOnly_inverse ha).bind fun _ _ => .ok _

theorem failsOnly_solve (a : Named RatMatrix) : FailsOnly OfOperands (solve a) :=
  (RatMatrix.failsOnly_solve a.value.reduce.matrix).bind fun _ _ => .ok _

theorem failsOnly_cramer (ha : a.value.WellFormed) : FailsOnly OfOperands (cramer a) :=
  (RatMatrix.failsOnly_cramer ha).bind fun _ _ => .ok _

theorem failsOnly_cross (operands : List (Named RatVector)) :
    FailsOnly OfOperands (cross operands) := by
  unfold cross
  split
  · exact .error trivial
  · exact (RatVector.failsOnly_cross _ _).bind fun _ _ => .ok _

end Worked

end ExactLinear
