import ExactLinear.Proofs.Reduction
import ExactLinear.Proofs.Representation
import ExactLinear.Proofs.RowSpace

/-!
# The determinant in the transcript of a reduction

An exchange turns the sign of the determinant, a division divides it and a subtraction keeps it. So
the determinant of a square matrix is the product of these factors over the operations of its
reduction, times the determinant of the reduced matrix (`AllGenuine.prod_factor_mul_det_actAll`). A
reduced square matrix is the identity, or else its last row is zero (`Reduced.grid_eq_one`,
`Reduced.det_grid_eq_zero`). Hence the exchanges and the divisors that a reduction logs yield the
determinant, which `determinant` computes by another elimination.
-/

namespace ExactLinear

open RatMatrix (entryAt)
open RowOp Finset

variable {n r : ℕ} {lead : ℕ → ℕ} {rows : List (List ℚ)}

/-! ## Factors in the log -/

namespace RowOp

/-- The operation exchanges two rows. -/
def isSwap : RowOp → Bool
  | .swap _ _ => true
  | _ => false

/-- The number by which the operation divides a row. -/
def divisor? : RowOp → Option ℚ
  | .divide _ divisor => some divisor
  | _ => none

/-- Of the factors of a list, the exchanges yield the sign and the divisions the rest. -/
theorem prod_factor (ops : List RowOp) :
    (ops.map factor).prod = (-1) ^ ops.countP isSwap * (ops.filterMap divisor?).prod := by
  induction ops with
  | nil => exact (one_mul 1).symm
  | cons op ops ih =>
    rw [List.map_cons, List.prod_cons, ih]
    cases op with
    | swap a b =>
      rw [List.countP_cons_of_pos rfl, List.filterMap_cons_none rfl, factor, pow_succ]
      ring
    | divide row d =>
      have hdivisor : divisor? (.divide row d) = some d := rfl
      rw [List.countP_cons_of_neg Bool.false_ne_true, List.filterMap_cons_some hdivisor,
        List.prod_cons, factor]
      ring
    | subtract target source f =>
      rw [List.countP_cons_of_neg Bool.false_ne_true, List.filterMap_cons_none rfl, factor, one_mul]

end RowOp

/-! ## Reduced square matrices -/

namespace Reduced

/-- When all rows have a lead, the leads stand on the diagonal. -/
theorem lead_eq_self (hs : Reduced n n lead rows) {i : ℕ} (hi : i < n) : lead i = i := by
  -- `n` different columns among the first `n` are all of these
  have himage : (range n).image lead = range n := by
    refine eq_of_subset_of_card_le (fun c hc => ?_) ?_
    · obtain ⟨k, hk, rfl⟩ := mem_image.mp hc
      exact mem_range.mpr (hs.lead_lt k (mem_range.mp hk))
    · rw [card_image_of_ascends hs.ascends, card_range]
  have hdiagonal : ∀ i k, i < k → k < n → id i < id k := fun _ _ hik _ => hik
  refine (eq_of_ascends hs.ascends hdiagonal fun c => ?_).2 i hi
  simpa using Finset.ext_iff.mp himage c

/-- A reduced square matrix with a lead in each row is the identity. -/
theorem grid_eq_one (hs : Reduced n n lead rows) : grid n n rows = 1 := by
  ext i j
  have hlead := hs.lead_eq_self j.isLt
  rw [grid_apply, Matrix.one_apply]
  split_ifs with hij
  · rw [hij]
    have hone := hs.lead_eq_one j j.isLt
    rwa [hlead] at hone
  · have hzero := hs.column j.isLt fun h => hij (Fin.ext h)
    rwa [hlead] at hzero

/-- A reduced square matrix with a row without a lead has the determinant zero. -/
theorem det_grid_eq_zero (hs : Reduced n r lead rows) (hr : r < n) : (grid n n rows).det = 0 :=
  Matrix.det_eq_zero_of_row_eq_zero ⟨r, hr⟩ fun j => hs.rest_eq_zero r le_rfl j j.isLt

end Reduced

namespace RatMatrix

/-- **The determinant can be read off the transcript of a reduction.** When a plain square matrix is
reduced to the identity, its determinant is the product of the divisors of all logged divisions,
with the opposite sign when the number of logged exchanges is odd. When it is reduced to another
matrix, its determinant is zero. -/
theorem determinant_eq_of_transcript (n : ℕ) (m : RatMatrix) (hm : m.WellFormed)
    (hshape : m.shape = ⟨n, n⟩) (hplain : m.augmented = false) :
    ∃ d e, m.determinant = .ok d ∧ identity n = .ok e ∧
      (m.reduce.matrix = e →
        d = (-1) ^ m.reduce.transcript.operations.countP RowOp.isSwap *
          (m.reduce.transcript.operations.filterMap RowOp.divisor?).prod) ∧
      (m.reduce.matrix ≠ e → d = 0) := by
  have hn := hm.1
  have hrepr := hm.represents_of_shape_eq hshape
  obtain ⟨r, lead, hs⟩ := reduced_reduce hm
  obtain ⟨hops, hreduce⟩ := reduce_eq hm
  obtain ⟨hwf, hkeep, hflag⟩ := wellFormed_reduce hm
  have hreduced := hwf.represents_of_shape_eq (hkeep.trans hshape)
  rw [variableCount_eq_cols hplain] at hs
  rw [hshape] at hn hops hs
  obtain ⟨e, he, hidentity, hplain'⟩ := represents_identity hn
  have hrows : m.reduce.matrix.rows = actAll m.rows m.reduce.transcript.operations := by
    rw [hreduce]
  have hfactor := hops.prod_factor_mul_det_actAll hrepr.rectangular
  rw [← hrows, prod_factor] at hfactor
  refine ⟨_, e, hrepr.determinant_eq hplain, he, fun heq => ?_, fun hne => ?_⟩
  · rw [← hfactor, heq, hidentity.grid_eq, Matrix.det_one, mul_one]
  · have hr : r < n := by
      refine lt_of_le_of_ne (hreduced.rectangular.length_eq ▸ hs.le_length) fun hr => hne ?_
      subst hr
      rw [hs.grid_eq_one] at hreduced
      exact hreduced.eq_of_augmented_eq hidentity (hflag.trans (hplain.trans hplain'.symm))
    rw [← hfactor, hs.det_grid_eq_zero hr, mul_zero]

/-- A reduction that logs one exchange and two divisors. -/
theorem determinant_eq_of_transcript_of_exchange :
    let m : RatMatrix := ⟨⟨2, 2⟩, [[0, 2], [3, 1]], false⟩
    m.reduce.transcript.operations = [.swap 0 1, .divide 0 3, .divide 1 2, .subtract 0 1 (1 / 3)] ∧
      m.determinant = .ok (-6) := by
  intro m
  have hops : m.reduce.transcript.operations =
      [.swap 0 1, .divide 0 3, .divide 1 2, .subtract 0 1 (1 / 3)] := by decide +kernel
  have hidentity : identity 2 = .ok m.reduce.matrix := by decide +kernel
  obtain ⟨d, e, hd, he, hproduct, -⟩ :=
    determinant_eq_of_transcript 2 m (by decide +kernel) rfl rfl
  have hvalue := hproduct (Except.ok.inj (hidentity.symm.trans he))
  rw [hops] at hvalue
  refine ⟨hops, hd.trans ?_⟩
  rw [hvalue]
  decide +kernel

end RatMatrix

end ExactLinear
