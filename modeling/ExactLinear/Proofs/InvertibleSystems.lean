import ExactLinear.Proofs.CramersRule

/-!
# Systems solved by an inverse

`augment a b` is the system with the coefficients `a` and the constants `b`. When `a` has an
inverse, the coefficients send the product of the inverse with `b` back to `b`, so this product is a
solution; and it is the only one, as the determinant of the coefficients is not zero. When `a` is
singular, the system has no solution or more than one. So `inverse`, which computes the adjugate,
and `solve`, which eliminates, agree about every matrix and all constants.
-/

namespace ExactLinear.RatMatrix

variable {n w : ℕ} {a : RatMatrix} {b : RatVector}

/-- The system with the coefficients `a` and the constants `b`. -/
def augment (a : RatMatrix) (b : RatVector) : RatMatrix where
  shape := ⟨a.shape.rows, a.shape.cols + 1⟩
  rows := List.zipWith (fun row x => row ++ [x]) a.rows b.entries
  augmented := true

/-- The system represents the coefficients with the constants as one more column. -/
theorem Represents.augment {A : Matrix (Fin n) (Fin w) ℚ} (h : a.Represents A)
    (hb : b.length = n) :
    (augment a b).Represents (Matrix.of fun i => Fin.snoc (A i) (b.entries.getD i 0)) := by
  have hlen : (RatMatrix.augment a b).rows.length = n := by
    rw [RatMatrix.augment, List.length_zipWith, h.rectangular.length_eq,
      show b.entries.length = n from hb, min_self]
  refine ⟨?_, ⟨hlen, fun row hrow => ?_⟩, ?_⟩
  · rw [RatMatrix.augment, h.shape_eq]
  · obtain ⟨i, hi, rfl⟩ := List.mem_iff_getElem.mp hrow
    simp only [RatMatrix.augment, List.getElem_zipWith, List.length_append, List.length_singleton]
    rw [h.rectangular.row_length _ (List.getElem_mem _)]
  · ext i j
    have hi : i < a.rows.length := h.rectangular.length_eq.symm ▸ i.isLt
    have hrow : (RatMatrix.augment a b).rows.getD i [] =
        a.rows.getD i [] ++ [b.entries.getD i 0] := by
      rw [List.getD_eq_getElem _ _ (hlen.symm ▸ i.isLt), List.getD_eq_getElem _ _ hi,
        List.getD_eq_getElem _ _ (show i < b.entries.length from hb.symm ▸ i.isLt)]
      exact List.getElem_zipWith
    have hwidth := h.rectangular.length_getD i.isLt
    rw [grid_apply, entryAt, hrow, Matrix.of_apply]
    cases j using Fin.lastCases with
    | last =>
      rw [Fin.snoc_last, Fin.val_last, List.getD_append_right _ _ _ _ hwidth.le, hwidth,
        Nat.sub_self, List.getD_cons_zero]
    | cast j =>
      rw [Fin.snoc_castSucc, Fin.val_castSucc, List.getD_append _ _ _ _ (hwidth.symm ▸ j.isLt),
        ← h.entryAt_eq, entryAt]

section Square

variable {A : Matrix (Fin n) (Fin n) ℚ}

/-- With a square matrix of coefficients the system is square, and its coefficients and its
constants are the given ones. -/
theorem Represents.squareSystem_augment (h : a.Represents A) (hn : 0 < n) (hb : b.length = n) :
    (RatMatrix.augment a b).SquareSystem n ∧ grid n n (RatMatrix.augment a b).rows = A ∧
      constantColumn n (RatMatrix.augment a b) = fun i : Fin n => b.entries.getD i 0 := by
  have hrepr := h.augment hb
  refine ⟨⟨hrepr.wellFormed hn (Nat.succ_pos n), rfl, hrepr.shape_eq⟩, ?_, ?_⟩
  · ext i j
    have hentry := hrepr.entryAt_eq i j.castSucc
    rwa [Matrix.of_apply, Fin.snoc_castSucc] at hentry
  · funext i
    have hentry := hrepr.entryAt_eq i (Fin.last n)
    rwa [Matrix.of_apply, Fin.snoc_last] at hentry

/-- The program takes the system apart into what it was put together from. -/
theorem Represents.parts_augment (h : a.Represents A) (hplain : a.augmented = false) (hn : 0 < n)
    (hb : b.length = n) :
    (RatMatrix.augment a b).coefficients = .ok a ∧
      (RatMatrix.augment a b).constants = .ok b := by
  obtain ⟨hsystem, hgrid, hconstants⟩ := h.squareSystem_augment hn hb
  constructor
  · obtain ⟨rows, hcoeff, hrect, hrows⟩ := hsystem.coefficients_eq
    have hsame : (⟨⟨n, n⟩, rows, false⟩ : RatMatrix).Represents A := ⟨rfl, hrect, hrows.trans hgrid⟩
    rw [hcoeff, hsame.eq_of_augmented_eq h hplain.symm]
  · obtain ⟨hconst, hlen, hentries⟩ := hsystem.constants_eq
    have hcolumn : (RatMatrix.augment a b).column n = b.entries :=
      eq_of_getD_eq hlen hb fun i hi => congrFun (hentries.trans hconstants) ⟨i, hi⟩
    rw [hconst, hcolumn]

end Square

/-- **The inverse and the solver agree.** Let `a` be a plain square matrix and `b` a vector with as
many components. When `a` has an inverse, its product with `b` is the only solution of the system of
`a` and `b`; when `a` is refused as singular, the system is not answered with one solution; and
there is no third case. -/
theorem inverse_agrees_with_solve (n : ℕ) (a : RatMatrix) (b : RatVector) (ha : a.WellFormed)
    (hplain : a.augmented = false) (hshape : a.shape = ⟨n, n⟩) (hb : b.length = n) :
    ((augment a b).WellFormed ∧ (augment a b).coefficients = .ok a ∧
        (augment a b).constants = .ok b) ∧
      (∀ r, a.inverse = .ok r → ∃ x, r.inverse.mulVector b = .ok x ∧
        (augment a b).solve = .ok (.unique x.entries)) ∧
      (a.inverse = .error .singular → ∃ s, (augment a b).solve = .ok s ∧ s.isUnique = false) ∧
      ((∃ r, a.inverse = .ok r) ∨ a.inverse = .error .singular) := by
  have hn : 0 < n := by
    have hpos := ha.1
    rwa [hshape] at hpos
  have hrepr := ha.represents_of_shape_eq hshape
  obtain ⟨hsystem, hgrid, hconstants⟩ := hrepr.squareSystem_augment hn hb
  refine ⟨⟨hsystem.wellFormed, hrepr.parts_augment hplain hn hb⟩, ?_⟩
  by_cases hdet : (grid n n a.rows).det = 0
  · obtain ⟨adj, -, -, -, hinverse⟩ := hrepr.inverse_eq hn
    rw [if_pos hdet] at hinverse
    rw [hinverse]
    refine ⟨fun r hr => (nomatch hr), fun _ => ?_, .inr rfl⟩
    exact hsystem.isUnique_solve_eq_false (by rwa [hgrid])
  · obtain ⟨r, hr, hinverse⟩ := hrepr.inverse hn hdet
    rw [hr]
    refine ⟨fun r' hr' => ?_, fun hsingular => (nomatch hsingular), .inl ⟨r, rfl⟩⟩
    obtain rfl := Except.ok.inj hr'
    obtain ⟨x, hx, hentries⟩ := hinverse.mulVector hn hb
    refine ⟨x, hx, ?_⟩
    rw [hentries]
    refine hsystem.solve_eq_of_solves (by rwa [hgrid]) (hsystem.solves_ofFn_iff.mpr ?_)
    -- the coefficients undo what their inverse does to the constants
    rw [hgrid, hconstants, Matrix.mulVec_mulVec, Matrix.mul_nonsing_inv _ (Ne.isUnit hdet),
      Matrix.one_mulVec]

/-- A matrix whose rows have to be exchanged: its inverse yields the solution that elimination
finds. -/
theorem inverse_agrees_with_solve_of_exchange :
    let a : RatMatrix := ⟨⟨2, 2⟩, [[0, 2], [1, 1]], false⟩
    let inverse : RatMatrix := ⟨⟨2, 2⟩, [[-1 / 2, 1], [1 / 2, 0]], false⟩
    a.inverse = .ok ⟨inverse, ⟨⟨2, 2⟩, [[1, -2], [-1, 0]], false⟩, -2⟩ ∧
      inverse.mulVector ⟨[4, 1]⟩ = .ok ⟨[-1, 2]⟩ ∧
      (augment a ⟨[4, 1]⟩).solve = .ok (.unique [-1, 2]) := by
  intro a inverse
  have hinverse : a.inverse = .ok ⟨inverse, ⟨⟨2, 2⟩, [[1, -2], [-1, 0]], false⟩, -2⟩ := by
    decide +kernel
  have hproduct : inverse.mulVector ⟨[4, 1]⟩ = .ok ⟨[-1, 2]⟩ := by decide +kernel
  obtain ⟨-, hagree, -⟩ :=
    inverse_agrees_with_solve 2 a ⟨[4, 1]⟩ (by decide +kernel) rfl rfl rfl
  obtain ⟨x, hx, hsolve⟩ := hagree _ hinverse
  obtain rfl := Except.ok.inj (hproduct.symm.trans hx)
  exact ⟨hinverse, hx, hsolve⟩

end ExactLinear.RatMatrix
