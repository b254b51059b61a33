import Mathlib.LinearAlgebra.Matrix.ToLinearEquiv
import ExactLinear.Cramer
import ExactLinear.Proofs.Representation
import ExactLinear.Proofs.SolutionSet

/-!
# Cramer's rule against elimination

A `SquareSystem` has as many equations as variables. Its coefficients, its constants and the
matrices with a replaced column all exist, so `cramer` fails only when the determinant of the
coefficients is zero (`SquareSystem.cramer_eq`). That is the case exactly when the system does not
have one solution, and the ratios of determinants are the solution otherwise; so `cramer` and
`solve` agree, although one triangularizes and the other eliminates in both directions.
-/

namespace ExactLinear.RatMatrix

open Matrix (mulVec)

variable {n : ℕ} {m : RatMatrix}

/-- An augmented matrix with `n` equations in `n` variables. -/
structure SquareSystem (n : ℕ) (m : RatMatrix) : Prop where
  wellFormed : m.WellFormed
  augmented_eq : m.augmented = true
  shape_eq : m.shape = ⟨n, n + 1⟩

/-- An augmented matrix with as many rows as variables is a square system. -/
theorem squareSystem_of_rows_eq (hm : m.WellFormed) (haug : m.augmented = true)
    (hrows : m.shape.rows = m.variableCount) : m.SquareSystem m.shape.rows := by
  refine ⟨hm, haug, ?_⟩
  rw [hrows, ← hm.cols_eq haug, ← hrows]

/-- The constants of a system with `n` equations in `n` variables. -/
def constantColumn (n : ℕ) (m : RatMatrix) : Fin n → ℚ := fun i => entryAt m.rows i n

namespace SquareSystem

theorem rectangular (h : m.SquareSystem n) : Rectangular n (n + 1) m.rows := by
  have hrect := h.wellFormed.rectangular
  rwa [h.shape_eq] at hrect

theorem variableCount_eq (h : m.SquareSystem n) : m.variableCount = n := by
  rw [variableCount, if_pos h.augmented_eq, h.shape_eq, Nat.add_sub_cancel]

theorem pos (h : m.SquareSystem n) : 0 < n := by
  have hpos := h.wellFormed.1
  rwa [h.shape_eq] at hpos

/-! ## The solutions of a square system -/

/-- A solution is mapped to the constants by the coefficients. -/
theorem solves_iff_mulVec (h : m.SquareSystem n) {x : List ℚ} :
    m.Solves x ↔ x.length = n ∧
      (grid n n m.rows).mulVec (fun j => x.getD j 0) = constantColumn n m := by
  rw [solves_iff, h.variableCount_eq, rowSpace_le_solvedBy_iff]
  refine and_congr_right fun _ => ?_
  have hrow : ∀ i : Fin n, entryAt m.rows i ∈ solvedBy n (fun j => x.getD j 0) ↔
      (grid n n m.rows).mulVec (fun j => x.getD j 0) i = constantColumn n m i := by
    intro i
    rw [mem_solvedBy_iff, Finset.sum_range]
    rfl
  constructor
  · exact fun hall => funext fun i => (hrow i).mp (hall i)
  · intro heq i
    rcases lt_or_ge i n with hi | hi
    · exact (hrow ⟨i, hi⟩).mpr (congrFun heq ⟨i, hi⟩)
    · have hzero : entryAt m.rows i = 0 := funext fun j => h.rectangular.entryAt_of_rows_le hi j
      rw [hzero]
      exact Submodule.zero_mem _

theorem solves_ofFn_iff (h : m.SquareSystem n) {v : Fin n → ℚ} :
    m.Solves (List.ofFn v) ↔ (grid n n m.rows).mulVec v = constantColumn n m := by
  rw [h.solves_iff_mulVec, List.length_ofFn, eq_self, true_and, funext (getD_ofFn v)]

/-- The solutions are the preimages of the constants under the coefficients. -/
theorem existsUnique_solves_iff (h : m.SquareSystem n) :
    (∃! x, m.Solves x) ↔ ∃! v, (grid n n m.rows).mulVec v = constantColumn n m := by
  constructor
  · rintro ⟨x, hx, honly⟩
    refine ⟨_, (h.solves_iff_mulVec.mp hx).2, fun v hv => ?_⟩
    rw [← honly (List.ofFn v) (h.solves_ofFn_iff.mpr hv)]
    exact (funext (getD_ofFn v)).symm
  · rintro ⟨v, hv, honly⟩
    refine ⟨List.ofFn v, h.solves_ofFn_iff.mpr hv, fun x hx => ?_⟩
    obtain ⟨hlen, hx⟩ := h.solves_iff_mulVec.mp hx
    rw [← honly _ hx]
    refine eq_of_getD_eq hlen (by simp) fun j hj => ?_
    exact (getD_ofFn (fun j => x.getD j 0) ⟨j, hj⟩).symm

/-- There is one solution exactly when the determinant of the coefficients is not zero. -/
theorem existsUnique_solves_iff_det_ne_zero (h : m.SquareSystem n) :
    (∃! x, m.Solves x) ↔ (grid n n m.rows).det ≠ 0 := by
  rw [h.existsUnique_solves_iff]
  constructor
  · -- a vector other than zero that the coefficients send to zero leads to a second solution
    rintro ⟨v, hv, honly⟩ hdet
    obtain ⟨u, hu, hker⟩ := Matrix.exists_mulVec_eq_zero_iff.mpr hdet
    refine hu (add_left_cancel (a := v) ?_)
    rw [add_zero]
    exact honly (v + u) ((Matrix.mulVec_add _ v u).trans (by rw [hv, hker, add_zero]))
  · intro hdet
    have hunit : IsUnit (grid n n m.rows) := (Matrix.isUnit_iff_isUnit_det _).mpr hdet.isUnit
    refine (Matrix.mulVec_surjective_iff_isUnit.mpr hunit _).imp fun v hv => ⟨hv, fun u hu => ?_⟩
    exact Matrix.mulVec_injective_iff_isUnit.mpr hunit (hu.trans hv.symm)

/-- The ratios of determinants are a solution. -/
theorem solves_ratios (h : m.SquareSystem n) (hdet : (grid n n m.rows).det ≠ 0) :
    m.Solves (List.ofFn fun i =>
      ((grid n n m.rows).updateCol i (constantColumn n m)).det / (grid n n m.rows).det) := by
  have hratios : (fun i => ((grid n n m.rows).updateCol i (constantColumn n m)).det /
      (grid n n m.rows).det) =
        (grid n n m.rows).det⁻¹ • Matrix.cramer (grid n n m.rows) (constantColumn n m) := by
    funext i
    rw [Pi.smul_apply, Matrix.cramer_apply, smul_eq_mul, div_eq_inv_mul]
  rw [hratios, h.solves_ofFn_iff, Matrix.mulVec_smul, Matrix.mulVec_cramer, smul_smul,
    inv_mul_cancel₀ hdet, one_smul]

/-- When the determinant of the coefficients is not zero, every solution is the answer of `solve`. -/
theorem solve_eq_of_solves (h : m.SquareSystem n) (hdet : (grid n n m.rows).det ≠ 0)
    {x : List ℚ} (hx : m.Solves x) : m.solve = .ok (.unique x) := by
  obtain ⟨s, hsolve, hs⟩ := describes_solve h.wellFormed h.augmented_eq
  have hunique := hs.isUnique_iff.mpr (h.existsUnique_solves_iff_det_ne_zero.mpr hdet)
  cases s with
  | unique values => rw [hsolve, (hs x).mp hx]
  | infinite free expressions => exact Bool.noConfusion hunique
  | inconsistent row constant => exact Bool.noConfusion hunique

/-- When the determinant of the coefficients is zero, `solve` does not answer with one solution. -/
theorem isUnique_solve_eq_false (h : m.SquareSystem n) (hdet : (grid n n m.rows).det = 0) :
    ∃ s, m.solve = .ok s ∧ s.isUnique = false := by
  obtain ⟨s, hsolve, hs⟩ := describes_solve h.wellFormed h.augmented_eq
  refine ⟨s, hsolve, Bool.eq_false_iff.mpr fun hunique => ?_⟩
  exact h.existsUnique_solves_iff_det_ne_zero.mp (hs.isUnique_iff.mp hunique) hdet

/-! ## The run of `cramer` -/

/-- The coefficients are the rows without their last entry. -/
theorem coefficients_eq (h : m.SquareSystem n) :
    ∃ rows, m.coefficients = .ok ⟨⟨n, n⟩, rows, false⟩ ∧ Rectangular n n rows ∧
      grid n n rows = grid n n m.rows := by
  have hrepr := h.wellFormed.represents_of_shape_eq h.shape_eq
  obtain ⟨⟨shape, rows, flag⟩, hcoeff, ⟨rfl, hrect, hgrid⟩, rfl⟩ :=
    hrepr.coefficients h.augmented_eq h.pos h.pos
  exact ⟨rows, hcoeff, hrect, hgrid⟩

/-- The constants are the last entries. -/
theorem constants_eq (h : m.SquareSystem n) :
    m.constants = .ok ⟨m.column n⟩ ∧ (m.column n).length = n ∧
      (fun i : Fin n => (m.column n).getD i 0) = constantColumn n m := by
  have hlen : (m.column n).length = n := by rw [column, List.length_map, h.rectangular.length_eq]
  refine ⟨?_, hlen, ?_⟩
  · have hne : (m.column n).isEmpty = false := by
      rw [List.isEmpty_eq_false_iff, ← List.length_pos_iff, hlen]
      exact h.pos
    rw [constants, if_pos h.augmented_eq, h.shape_eq, Nat.add_sub_cancel, RatVector.ofList, hne]
    rfl
  · funext i
    exact List.getD_map m.rows [] fun row => row.getD n 0

end SquareSystem

/-- Replacing a column succeeds, and is the same on the grid. -/
theorem withColumn_eq {rows : List (List ℚ)} (h : Rectangular n n rows) {entries : List ℚ}
    (hlen : entries.length = n) (i : Fin n) :
    ∃ replaced, (⟨⟨n, n⟩, rows, false⟩ : RatMatrix).withColumn i ⟨entries⟩ =
        .ok ⟨⟨n, n⟩, replaced, false⟩ ∧ Rectangular n n replaced ∧
      grid n n replaced = (grid n n rows).updateCol i fun k => entries.getD k 0 := by
  set replaced := List.zipWith (fun row x => row.set i x) rows entries with hreplaced
  have hlength : replaced.length = n := by
    rw [hreplaced, List.length_zipWith, h.length_eq, hlen, min_self]
  refine ⟨replaced, ?_, ⟨hlength, ?_⟩, ?_⟩
  · rw [withColumn, RatVector.length, hlen, if_neg (not_not.mpr rfl), if_neg (not_le.mpr i.isLt)]
  · intro row hrow
    obtain ⟨k, hk, rfl⟩ := List.mem_iff_getElem.mp hrow
    rw [List.getElem_zipWith, List.length_set]
    exact h.row_length _ (List.getElem_mem _)
  · ext k j
    have hk : k < replaced.length := hlength.symm ▸ k.isLt
    have hrow : k < rows.length := h.length_eq.symm ▸ k.isLt
    rw [grid_apply, entryAt, List.getD_eq_getElem _ _ hk, List.getElem_zipWith,
      Matrix.updateCol_apply, grid_apply, entryAt, List.getD_eq_getElem _ _ hrow]
    split_ifs with hji
    · have hlenrow : i < rows[k.val].length := by
        rw [h.row_length _ (List.getElem_mem hrow)]
        exact i.isLt
      rw [hji, List.getD_eq_getElem _ _ (by rwa [List.length_set]), List.getElem_set_self,
        List.getD_eq_getElem _ _ (hlen.symm ▸ k.isLt)]
    · rw [List.getD_eq_getElem?_getD, List.getElem?_set_ne fun hij => hji (Fin.ext hij.symm),
        ← List.getD_eq_getElem?_getD]

/-- The step for one variable computes its ratio of determinants. -/
theorem cramerStep_eq {rows : List (List ℚ)} (h : Rectangular n n rows) {entries : List ℚ}
    (hlen : entries.length = n) (d : ℚ) (i : Fin n) :
    ∃ t, cramerStep ⟨⟨n, n⟩, rows, false⟩ ⟨entries⟩ d i =
      .ok (((grid n n rows).updateCol i fun k => entries.getD k 0).det / d, t) := by
  obtain ⟨replaced, hreplaced, hrect, hgrid⟩ := withColumn_eq h hlen i
  unfold cramerStep
  rw [hreplaced, ← hgrid]
  simp only [bind, Except.bind, determinant_eq_det hrect]
  exact ⟨_, rfl⟩

namespace SquareSystem

/-- The rule yields the ratios of determinants, unless it divides by zero. -/
theorem cramer_eq (h : m.SquareSystem n) :
    ∃ t, m.cramer = if (grid n n m.rows).det = 0 then .error .cramerNotApplicable
      else .ok (.unique (List.ofFn fun i =>
        ((grid n n m.rows).updateCol i (constantColumn n m)).det / (grid n n m.rows).det), t) := by
  obtain ⟨rows, hcoeff, hrect, hgrid⟩ := h.coefficients_eq
  obtain ⟨hconst, hlen, hentries⟩ := h.constants_eq
  have hflag : (!m.augmented) = false := by rw [h.augmented_eq]; rfl
  have hrows : m.shape.rows = n := by rw [h.shape_eq]
  -- no step of the loop fails, so its results and its transcripts are functions of the variable
  choose t ht using cramerStep_eq hrect hlen (grid n n rows).det
  rw [← hgrid, ← hentries]
  simp only [cramer, hflag, Bool.false_eq_true, if_false, hcoeff, hconst, hrows,
    h.variableCount_eq, ne_eq, not_true_eq_false, bind, Except.bind, determinant_eq_det hrect,
    mapM_range_eq_ok ht]
  by_cases hdet : (grid n n rows).det = 0
  · simp only [if_pos hdet]
    exact ⟨[], rfl⟩
  · simp only [if_neg hdet, List.map_ofFn]
    exact ⟨_, rfl⟩

end SquareSystem

/-- **Cramer's rule and elimination agree.** On a square system `cramer` succeeds exactly when
`solve` finds one solution, and then with this solution; in every other case it says that it does
not apply. -/
theorem cramer_agrees_with_solve (n : ℕ) (m : RatMatrix) (h : m.SquareSystem n) :
    ((∃ s t, m.cramer = .ok (s, t)) ↔ ∃ values, m.solve = .ok (.unique values)) ∧
      (∀ s t, m.cramer = .ok (s, t) → m.solve = .ok s) ∧
      ((¬∃ values, m.solve = .ok (.unique values)) → m.cramer = .error .cramerNotApplicable) := by
  obtain ⟨answer, hsolve, hdescribes⟩ := describes_solve h.wellFormed h.augmented_eq
  have hunique : (∃ values, m.solve = .ok (.unique values)) ↔ (grid n n m.rows).det ≠ 0 := by
    rw [← h.existsUnique_solves_iff_det_ne_zero, ← hdescribes.isUnique_iff, hsolve]
    cases answer <;> simp [Solution.isUnique]
  obtain ⟨steps, hcramer⟩ := h.cramer_eq
  rw [hunique, hcramer]
  by_cases hdet : (grid n n m.rows).det = 0
  · simp [hdet]
  · have hratios := h.solves_ratios hdet
    obtain ⟨values, hvalues⟩ := hunique.mpr hdet
    obtain rfl := Except.ok.inj (hsolve.symm.trans hvalues)
    rw [(hdescribes _).mp hratios, if_neg hdet]
    refine ⟨⟨fun _ => hdet, fun _ => ⟨_, _, rfl⟩⟩, ?_, fun hnot => absurd hdet hnot⟩
    intro s t heq
    rw [hvalues, (Prod.mk.inj (Except.ok.inj heq)).1]

/-- A system whose elimination starts with an exchange: `solve` finds one solution, so `cramer`
does. -/
theorem cramer_agrees_with_solve_of_exchange :
    ∃ t, (⟨⟨2, 3⟩, [[0, 2, 4], [1, 1, 1]], true⟩ : RatMatrix).cramer =
      .ok (.unique [-1, 2], t) := by
  obtain ⟨hiff, hsame, -⟩ :=
    cramer_agrees_with_solve 2 ⟨⟨2, 3⟩, [[0, 2, 4], [1, 1, 1]], true⟩ ⟨by decide, rfl, rfl⟩
  have hsolve : (⟨⟨2, 3⟩, [[0, 2, 4], [1, 1, 1]], true⟩ : RatMatrix).solve =
      .ok (.unique [-1, 2]) := by decide +kernel
  obtain ⟨s, t, hcramer⟩ := hiff.mpr ⟨_, hsolve⟩
  obtain rfl := Except.ok.inj (hsolve.symm.trans (hsame s t hcramer))
  exact ⟨t, hcramer⟩

end ExactLinear.RatMatrix
