import ExactLinear.Proofs.Representation

/-!
# The laws of the adjugate and of the inverse

A square matrix times its adjugate is its determinant times the identity, on both sides, also when
the determinant is zero. So the adjugate divided by the determinant is the inverse, and `inverse`
refuses a square matrix exactly when there is nothing to divide by. A matrix with the mark of a
system is treated like the plain one.
-/

namespace ExactLinear.RatMatrix

variable {n k w : ℕ} {a b c e m : RatMatrix}

/-! ## Products -/

/-- The product of two matrices has the entries of any matrix that represents the product. -/
theorem Represents.exists_mul {A : Matrix (Fin n) (Fin k) ℚ} {B : Matrix (Fin k) (Fin w) ℚ}
    (ha : a.Represents A) (hb : b.Represents B) (hc : c.Represents (A * B)) :
    ∃ p, a.mul b = .ok p ∧ p.sameEntries c = true := by
  obtain ⟨p, hp, hrepr, -⟩ := ha.mul hb
  exact ⟨p, hp, hrepr.sameEntries_eq_true hc⟩

section Adjugate

variable {A : Matrix (Fin n) (Fin n) ℚ}

/-- A matrix times its adjugate is the determinant times the identity, in both orders. -/
theorem Represents.exists_mul_adjugate (h : m.Represents A) (hadj : a.Represents A.adjugate)
    (he : e.Represents (1 : Matrix (Fin n) (Fin n) ℚ)) :
    (∃ p, m.mul a = .ok p ∧ p.sameEntries (e.scale A.det) = true) ∧
      ∃ p, a.mul m = .ok p ∧ p.sameEntries (e.scale A.det) = true := by
  have hscaled := he.scale A.det
  refine ⟨h.exists_mul hadj ?_, hadj.exists_mul h ?_⟩
  · rwa [Matrix.mul_adjugate]
  · rwa [Matrix.adjugate_mul]

/-- A matrix times its adjugate divided by its determinant is the identity, in both orders. -/
theorem Represents.exists_mul_inverse (h : m.Represents A) (hadj : a.Represents A.adjugate)
    (he : e.Represents (1 : Matrix (Fin n) (Fin n) ℚ)) (hdet : A.det ≠ 0) :
    (∃ p, m.mul (a.scale A.det⁻¹) = .ok p ∧ p.sameEntries e = true) ∧
      ∃ p, (a.scale A.det⁻¹).mul m = .ok p ∧ p.sameEntries e = true := by
  have hcancel : A.det⁻¹ • A.det • (1 : Matrix (Fin n) (Fin n) ℚ) = 1 := by
    rw [smul_smul, inv_mul_cancel₀ hdet, one_smul]
  have hdivided := hadj.scale A.det⁻¹
  refine ⟨h.exists_mul hdivided ?_, hdivided.exists_mul h ?_⟩
  · rwa [Matrix.mul_smul, Matrix.mul_adjugate, hcancel]
  · rwa [Matrix.smul_mul, Matrix.adjugate_mul, hcancel]

end Adjugate

/-! ## The laws -/

/-- A matrix that is not square has no inverse. -/
theorem inverse_eq_notSquare (h : m.shape.rows ≠ m.shape.cols) :
    m.inverse = .error (.notSquare m.shape) := by
  have hdet : (m.withAugmented false).determinant = .error (.notSquare m.shape) := by
    simp only [determinant, triangular, isSquare, withAugmented, h, decide_false,
      Bool.false_eq_true, if_false]
    rfl
  rw [inverse, hdet]
  rfl

/-- **The laws of the adjugate and of the inverse.** Every square matrix has a determinant `d`, when
it is taken as a plain one, and an adjugate, and their products in both orders have the entries of
`d` times the identity. The inverse exists exactly when `d` is not zero; it comes with the adjugate
and with `d`, is plain, and its products with the matrix have the entries of the identity. The
matrix is refused as singular exactly when `d` is zero, and as not square exactly when it is not. -/
theorem adjugate_and_inverse_laws (m : RatMatrix) (hm : m.WellFormed) :
    (m.shape.rows = m.shape.cols →
      ∃ d adj e, (m.withAugmented false).determinant = .ok d ∧ m.adjugate = .ok adj ∧
        identity m.shape.rows = .ok e ∧
        (∃ p, m.mul adj = .ok p ∧ p.sameEntries (e.scale d) = true) ∧
        (∃ p, adj.mul m = .ok p ∧ p.sameEntries (e.scale d) = true) ∧
        ((∃ r, m.inverse = .ok r) ↔ d ≠ 0) ∧
        (∀ r, m.inverse = .ok r → r.adjugate = adj ∧ r.determinant = d ∧
          r.inverse.augmented = false ∧
          (∃ p, m.mul r.inverse = .ok p ∧ p.sameEntries e = true) ∧
          ∃ p, r.inverse.mul m = .ok p ∧ p.sameEntries e = true) ∧
        (m.inverse = .error .singular ↔ d = 0)) ∧
      ((∃ s, m.inverse = .error (.notSquare s)) ↔ m.shape.rows ≠ m.shape.cols) := by
  by_cases hsquare : m.shape.rows = m.shape.cols
  case neg =>
    refine ⟨fun h => absurd h hsquare, fun _ => hsquare, fun h => ⟨_, inverse_eq_notSquare h⟩⟩
  obtain ⟨⟨n, w⟩, rows, flag⟩ := m
  obtain rfl : n = w := hsquare
  have hrepr := hm.represents
  obtain ⟨adj, hadj, hadjugate, hplain, hinverse⟩ := hrepr.inverse_eq hm.1
  obtain ⟨e, he, hidentity, -⟩ := represents_identity hm.1
  obtain ⟨hleft, hright⟩ := hrepr.exists_mul_adjugate hadjugate hidentity
  refine ⟨fun _ => ⟨_, adj, e, (hrepr.withAugmented false).determinant_eq rfl, hadj, he, hleft,
    hright, ?_, ?_, ?_⟩, ?_⟩
  · rw [hinverse]
    split_ifs with hdet <;> simp [hdet]
  · intro r hr
    rw [hinverse] at hr
    split_ifs at hr with hdet
    obtain rfl := Except.ok.inj hr
    exact ⟨rfl, rfl, hplain, hrepr.exists_mul_inverse hadjugate hidentity hdet⟩
  · rw [hinverse]
    split_ifs with hdet <;> simp [hdet]
  · rw [hinverse]
    split_ifs with hdet <;> simp

/-- A matrix with the mark of a system, whose inverse is computed without it. -/
theorem adjugate_and_inverse_laws_of_system :
    let m : RatMatrix := ⟨⟨2, 2⟩, [[1, 2], [3, 4]], true⟩
    let inverse : RatMatrix := ⟨⟨2, 2⟩, [[-2, 1], [3 / 2, -1 / 2]], false⟩
    m.inverse = .ok ⟨inverse, ⟨⟨2, 2⟩, [[4, -2], [-3, 1]], false⟩, -2⟩ ∧
      ∃ p, inverse.mul m = .ok p ∧ p.sameEntries ⟨⟨2, 2⟩, [[1, 0], [0, 1]], false⟩ = true := by
  intro m inverse
  have hvalue : m.inverse = .ok ⟨inverse, ⟨⟨2, 2⟩, [[4, -2], [-3, 1]], false⟩, -2⟩ := by
    decide +kernel
  have hidentity : identity 2 = .ok ⟨⟨2, 2⟩, [[1, 0], [0, 1]], false⟩ := by decide
  obtain ⟨d, adj, e, -, -, he, -, -, -, hinverse, -⟩ :=
    (adjugate_and_inverse_laws m (by decide)).1 rfl
  obtain rfl := Except.ok.inj (hidentity.symm.trans he)
  exact ⟨hvalue, (hinverse _ hvalue).2.2.2.2⟩

end ExactLinear.RatMatrix
