import Mathlib.LinearAlgebra.Dimension.Constructions
import Mathlib.LinearAlgebra.Matrix.DotProduct
import ExactLinear.CrossProduct
import ExactLinear.Proofs.Representation

/-!
# The law of the cross product

The `cofactors` of `k` rows in dimension `k + 1` are the signed determinants of what remains of them
without one column. By the expansion along the first row, the scalar product of a vector with them
is the determinant of the rows with this vector on top (`dotProduct_cofactors`). It is zero for each
of the rows, and it is zero for every vector exactly when the rows are dependent, as independent
ones can be completed by one more vector (`cofactors_eq_zero_iff`).

`cross` computes the cofactors of its operands, each by an elimination of its own; in two dimensions
it takes their opposites (`RatVector.cross_eq`).
-/

namespace ExactLinear

open RatMatrix (entryAt)
open Finset Matrix

variable {n k w : ℕ} {rows : List (List ℚ)}

/-! ## Cofactors -/

/-- Component `j` is the signed determinant of the rows without column `j`. -/
def cofactors (V : Matrix (Fin k) (Fin (k + 1)) ℚ) (j : Fin (k + 1)) : ℚ :=
  (-1) ^ (j : ℕ) * (V.submatrix id j.succAbove).det

/-- The rows with one more row on top. -/
def withTopRow (x : Fin (k + 1) → ℚ) (V : Matrix (Fin k) (Fin (k + 1)) ℚ) :
    Matrix (Fin (k + 1)) (Fin (k + 1)) ℚ :=
  Matrix.of (Fin.cons x V)

variable (V : Matrix (Fin k) (Fin (k + 1)) ℚ)

/-- The expansion of a determinant along its first row. -/
theorem dotProduct_cofactors (x : Fin (k + 1) → ℚ) :
    x ⬝ᵥ cofactors V = (withTopRow x V).det := by
  rw [Matrix.det_succ_row_zero]
  refine Finset.sum_congr rfl fun j _ => ?_
  rw [cofactors, mul_left_comm, mul_assoc]
  rfl

/-- The cofactors are orthogonal to the rows. -/
theorem row_dotProduct_cofactors (i : Fin k) : V i ⬝ᵥ cofactors V = 0 := by
  rw [dotProduct_cofactors]
  exact Matrix.det_zero_of_row_eq (Fin.succ_ne_zero i).symm rfl

/-- The cofactors are zero exactly when the rows are dependent. -/
theorem cofactors_eq_zero_iff : cofactors V = 0 ↔ ¬LinearIndependent ℚ V.row := by
  have hdet : ∀ x, x ⬝ᵥ cofactors V ≠ 0 ↔
      LinearIndependent ℚ V.row ∧ x ∉ Submodule.span ℚ (Set.range V.row) := by
    intro x
    rw [dotProduct_cofactors, ← isUnit_iff_ne_zero, ← Matrix.isUnit_iff_isUnit_det,
      ← Matrix.linearIndependent_rows_iff_isUnit, ← linearIndependent_finCons]
    rfl
  constructor
  · intro hzero hindependent
    -- `k` rows do not span a space of dimension `k + 1`
    have hspan : Submodule.span ℚ (Set.range V.row) ≠ ⊤ := by
      intro htop
      have hcard := finrank_span_eq_card hindependent
      rw [htop, finrank_top, Module.finrank_fin_fun, Fintype.card_fin] at hcard
      omega
    obtain ⟨x, -, hx⟩ := SetLike.exists_of_lt (lt_top_iff_ne_top.mpr hspan)
    exact (hdet x).mpr ⟨hindependent, hx⟩ (by rw [hzero, dotProduct_zero])
  · intro hdependent
    refine dotProduct_eq_zero _ fun x => ?_
    rw [dotProduct_comm]
    by_contra hne
    exact hdependent ((hdet x).mp hne).1

/-! ## Dependent rows -/

/-- Some combination of the rows is zero, with a coefficient other than zero. -/
def Dependent (rows : List (List ℚ)) : Prop :=
  ∃ a : ℕ → ℚ, (∃ i < rows.length, a i ≠ 0) ∧
    ∀ j, ∑ i ∈ range rows.length, a i * entryAt rows i j = 0

/-- Dependence can be told from the grid. -/
theorem Rectangular.dependent_iff (h : Rectangular n w rows) :
    Dependent rows ↔ ¬LinearIndependent ℚ (grid n w rows).row := by
  rw [Fintype.not_linearIndependent_iff, Dependent, h.length_eq]
  constructor
  · rintro ⟨a, ⟨i, hi, hne⟩, hzero⟩
    refine ⟨fun i => a i, funext fun j => ?_, ⟨i, hi⟩, hne⟩
    rw [Finset.sum_apply, Pi.zero_apply, ← hzero j, Finset.sum_range]
    rfl
  · rintro ⟨g, hzero, i, hne⟩
    refine ⟨fun i => (List.ofFn g).getD i 0, ⟨i, i.isLt, ?_⟩, fun j => ?_⟩
    · simpa only [getD_ofFn] using hne
    simp only [Finset.sum_range, getD_ofFn]
    rcases lt_or_ge j w with hj | hj
    · have hcolumn := congrFun hzero ⟨j, hj⟩
      rwa [Finset.sum_apply] at hcolumn
    · exact Finset.sum_eq_zero fun i _ => by rw [h.entryAt_of_cols_le i hj, mul_zero]

namespace RatVector

/-! ## The run of `cross` -/

/-- The operands of a cross product, as rows. -/
def operandRows (u : RatVector) (others : List RatVector) : List (List ℚ) :=
  (u :: others).map entries

/-- In two dimensions the cofactors are taken with the opposite sign. -/
def orientation (k : ℕ) : ℚ := if k = 1 then -1 else 1

theorem orientation_ne_zero (k : ℕ) : orientation k ≠ 0 := by
  rw [orientation]
  split_ifs <;> decide +kernel

theorem orientation_mul (k : ℕ) (d : ℚ) :
    orientation k * d = if k + 1 = 2 then -d else d := by
  simp only [orientation, Nat.reduceEqDiff, ite_mul, neg_one_mul, one_mul]

variable {u : RatVector} {others : List RatVector}

/-- Every operand is a row of the grid. -/
theorem exists_row_eq (h : Rectangular k w (operandRows u others)) {v : RatVector}
    (hv : v ∈ u :: others) :
    ∃ i, (fun j : Fin w => v.entries.getD j 0) = grid k w (operandRows u others) i := by
  have hmem : v.entries ∈ operandRows u others := List.mem_map_of_mem hv
  obtain ⟨i, hi, hentries⟩ := List.mem_iff_getElem.mp hmem
  refine ⟨⟨i, h.length_eq ▸ hi⟩, funext fun j => ?_⟩
  rw [grid_apply, entryAt, List.getD_eq_getElem _ _ hi, hentries]

/-- The step for one component computes its cofactor. -/
theorem component_eq (h : Rectangular k (k + 1) rows) (hk : 0 < k) (j : Fin (k + 1)) :
    (do
      let d ← (← (⟨⟨k, k + 1⟩, rows, false⟩ : RatMatrix).withoutColumn j).determinant
      return RatMatrix.withSign j d) =
      (.ok (cofactors (grid k (k + 1) rows) j) : Except LinearError ℚ) := by
  have hrepr : (⟨⟨k, k + 1⟩, rows, false⟩ : RatMatrix).Represents (grid k (k + 1) rows) :=
    ⟨rfl, h, rfl⟩
  obtain ⟨c, hc, hcrepr, hplain⟩ := hrepr.withoutColumn hk hk j
  rw [hc]
  simp only [bind, Except.bind, hcrepr.determinant_eq hplain]
  rw [RatMatrix.withSign_eq, cofactors]
  rfl

/-- Components make a vector when there is one at least. -/
theorem ofList_ofFn (f : Fin (k + 1) → ℚ) : ofList (List.ofFn f) = .ok ⟨List.ofFn f⟩ := by
  rw [ofList, List.ofFn_succ]
  rfl

/-- In two dimensions the operand is turned by a right angle, against its cofactors. -/
theorem cross_planar (x y : ℚ) :
    cross ⟨[x, y]⟩ [] = .ok ⟨List.ofFn fun j => -cofactors (grid 1 2 [[x, y]]) j⟩ := by
  have hfirst : cofactors (grid 1 2 [[x, y]]) 0 = y := by simp [cofactors, entryAt]
  have hsecond : cofactors (grid 1 2 [[x, y]]) 1 = -x := by simp [cofactors, entryAt]
  rw [List.ofFn_succ, List.ofFn_succ, List.ofFn_zero, hfirst, Fin.succ_zero_eq_one, hsecond,
    neg_neg]
  rfl

/-- In more than two dimensions the components are the cofactors. -/
theorem cross_spatial (h : Rectangular k (k + 1) (operandRows u others)) (hk : 1 < k) :
    u.cross others =
      .ok ⟨List.ofFn (cofactors (grid k (k + 1) (operandRows u others)))⟩ := by
  have hcount : others.length + 1 = k := by simpa [operandRows] using h.length_eq
  obtain ⟨hu, hothers⟩ := List.forall_mem_cons.mp h.row_length
  have hlen : u.length = k + 1 := hu
  have hfind : others.find? (·.length ≠ k + 1) = none := by
    rw [List.find?_eq_none]
    intro v hv
    have hvlen : v.length = k + 1 := hothers _ (List.mem_map_of_mem hv)
    simp [hvlen]
  have hfits : ¬(k + 1 < 2 ∨ others.length + 1 ≠ k + 1 - 1) := by omega
  simp only [cross, hlen, hfind, if_neg hfits]
  split
  · rename_i x y hentries
    rw [hentries] at hu
    simp at hu
    omega
  · have hoperands : RatMatrix.ofRows (u.entries :: others.map entries) false =
        .ok ⟨⟨k, k + 1⟩, operandRows u others, false⟩ :=
      h.ofRows_eq (by omega) (Nat.succ_pos k) false
    rw [hoperands]
    show (do
      let components ← (List.range (k + 1)).mapM _
      ofList components) = _
    rw [mapM_range_eq_ok (component_eq h (by omega))]
    exact ofList_ofFn _

/-- With one operand less than dimensions, the components are the cofactors of the operands, up to
the orientation. -/
theorem cross_eq (h : Rectangular k (k + 1) (operandRows u others)) :
    u.cross others =
      .ok ⟨List.ofFn (orientation k • cofactors (grid k (k + 1) (operandRows u others)))⟩ := by
  have hcount : others.length + 1 = k := by simpa [operandRows] using h.length_eq
  by_cases hk : k = 1
  · subst hk
    obtain rfl := List.length_eq_zero_iff.mp (Nat.succ.inj hcount)
    obtain ⟨entries⟩ := u
    obtain ⟨x, y, rfl⟩ := List.length_eq_two.mp (h.row_length entries List.mem_cons_self)
    rw [cross_planar, orientation, if_pos rfl, neg_one_smul]
    rfl
  · rw [cross_spatial h (by omega), orientation, if_neg hk, one_smul]

/-- There is one operand less than dimensions, and there are two dimensions at least. -/
theorem exists_rectangular_operandRows_iff :
    (∃ k, Rectangular k (k + 1) (operandRows u others)) ↔
      2 ≤ u.length ∧ (∀ v ∈ others, v.length = u.length) ∧
        (u :: others).length = u.length - 1 := by
  constructor
  · rintro ⟨k, h⟩
    have hcount : (u :: others).length = k := by simpa [operandRows] using h.length_eq
    obtain ⟨hu, hothers⟩ := List.forall_mem_cons.mp h.row_length
    have hlen : u.length = k + 1 := hu
    refine ⟨?_, fun v hv => ?_, by omega⟩
    · rw [List.length_cons] at hcount
      omega
    · exact (hothers _ (List.mem_map_of_mem hv)).trans hlen.symm
  · rintro ⟨htwo, hothers, hcount⟩
    refine ⟨u.length - 1, (List.length_map _).trans hcount, ?_⟩
    rw [Nat.sub_add_cancel (by omega)]
    intro row hrow
    obtain ⟨v, hv, rfl⟩ := List.mem_map.mp hrow
    obtain rfl | hv := List.mem_cons.mp hv
    · rfl
    · exact hothers v hv

/-- Operands that do not fit are refused. -/
theorem fits_of_cross {c : RatVector} (h : u.cross others = .ok c) :
    2 ≤ u.length ∧ (∀ v ∈ others, v.length = u.length) ∧ (u :: others).length = u.length - 1 := by
  unfold cross at h
  dsimp only at h
  cases hfind : others.find? (·.length ≠ u.length) with
  | some bad =>
    rw [hfind] at h
    cases h
  | none =>
    rw [hfind] at h
    dsimp only at h
    split_ifs at h with hrefused
    rw [not_or, not_lt, not_not] at hrefused
    refine ⟨hrefused.1, fun v hv => ?_, hrefused.2⟩
    simpa using List.find?_eq_none.mp hfind v hv

/-- The scalar product with components that are given by their places. -/
theorem dot_ofFn {x : RatVector} (hx : x.length = n) (f : Fin n → ℚ) :
    x.dot ⟨List.ofFn f⟩ = .ok ((fun j : Fin n => x.entries.getD j 0) ⬝ᵥ f) := by
  rw [dot, if_pos (by rw [hx, length, List.length_ofFn]), dotProduct_eq_sum, List.length_ofFn,
    Finset.sum_range]
  exact congrArg _ (Finset.sum_congr rfl fun j _ => by rw [getD_ofFn])

/-- The operands with one more vector on top make the matrix of the expansion. -/
theorem represents_withTopRow (h : Rectangular k (k + 1) rows) {x : RatVector}
    (hx : x.length = k + 1) :
    ∃ m, RatMatrix.ofRows (x.entries :: rows) false = .ok m ∧ m.augmented = false ∧
      m.Represents (withTopRow (fun j => x.entries.getD j 0) (grid k (k + 1) rows)) := by
  have hrect : Rectangular (k + 1) (k + 1) (x.entries :: rows) :=
    ⟨by rw [List.length_cons, h.length_eq], List.forall_mem_cons.mpr ⟨hx, h.row_length⟩⟩
  obtain ⟨m, hm, hrepr, hplain⟩ :=
    RatMatrix.represents_ofRows hrect (Nat.succ_pos k) (Nat.succ_pos k) false
  refine ⟨m, hm, hplain, hrepr.shape_eq, hrepr.rectangular, hrepr.grid_eq.trans ?_⟩
  ext i j
  cases i using Fin.cases <;> rfl

/-- **The law of the cross product.** The operands have a cross product exactly when there are two
dimensions at least, all of them have as many components as there are dimensions, and there is one
operand less than that. Its scalar product with a vector is the determinant of the matrix with this
vector on top of the operands, in two dimensions with the opposite sign. So it is orthogonal to each
operand, and it is zero exactly when the operands are dependent. -/
theorem cross_law (u : RatVector) (others : List RatVector) :
    ((∃ c, u.cross others = .ok c) ↔
        2 ≤ u.length ∧ (∀ v ∈ others, v.length = u.length) ∧
          (u :: others).length = u.length - 1) ∧
      ∀ c, u.cross others = .ok c →
        c.length = u.length ∧
        (∀ x : RatVector, x.length = u.length →
          ∃ m d, RatMatrix.ofRows ((x :: u :: others).map entries) false = .ok m ∧
            m.determinant = .ok d ∧ x.dot c = .ok (if u.length = 2 then -d else d)) ∧
        (∀ v ∈ u :: others, v.dot c = .ok 0) ∧
        ((∀ y ∈ c.entries, y = 0) ↔ Dependent ((u :: others).map entries)) := by
  refine ⟨⟨fun ⟨c, hc⟩ => fits_of_cross hc, fun hfits => ?_⟩, fun c hc => ?_⟩
  · obtain ⟨k, h⟩ := exists_rectangular_operandRows_iff.mpr hfits
    exact ⟨_, cross_eq h⟩
  obtain ⟨k, h⟩ := exists_rectangular_operandRows_iff.mpr (fits_of_cross hc)
  obtain rfl := Except.ok.inj ((cross_eq h).symm.trans hc)
  have hu : u.length = k + 1 := h.row_length _ List.mem_cons_self
  refine ⟨by rw [length, List.length_ofFn, hu], fun x hx => ?_, fun v hv => ?_, ?_⟩
  · obtain ⟨m, hm, hplain, hrepr⟩ := represents_withTopRow h (hx.trans hu)
    refine ⟨m, _, hm, hrepr.determinant_eq hplain, ?_⟩
    rw [dot_ofFn (hx.trans hu), dotProduct_smul, dotProduct_cofactors, smul_eq_mul,
      orientation_mul, hu]
  · obtain ⟨i, hi⟩ := exists_row_eq h hv
    have hvlen : v.length = k + 1 := h.row_length _ (List.mem_map_of_mem hv)
    rw [dot_ofFn hvlen, hi, dotProduct_smul, row_dotProduct_cofactors, smul_zero]
  · show _ ↔ Dependent (operandRows u others)
    rw [h.dependent_iff, ← cofactors_eq_zero_iff, List.forall_mem_ofFn_iff,
      ← smul_eq_zero_iff_right (orientation_ne_zero k), funext_iff]
    rfl

/-- Two independent vectors in space, and a vector that makes a basis with them. -/
theorem cross_law_of_space :
    cross ⟨[1, 0, 2]⟩ [⟨[0, 1, 3]⟩] = .ok ⟨[-2, -3, 1]⟩ ∧
      (∃ m d, RatMatrix.ofRows [[1, 1, 1], [1, 0, 2], [0, 1, 3]] false = .ok m ∧
        m.determinant = .ok d ∧ dot ⟨[1, 1, 1]⟩ ⟨[-2, -3, 1]⟩ = .ok d) ∧
      (∀ v ∈ [⟨[1, 0, 2]⟩, ⟨[0, 1, 3]⟩], dot v ⟨[-2, -3, 1]⟩ = .ok 0) ∧
      ¬Dependent [[1, 0, 2], [0, 1, 3]] := by
  have hcross : cross ⟨[1, 0, 2]⟩ [⟨[0, 1, 3]⟩] = .ok ⟨[-2, -3, 1]⟩ := by decide +kernel
  obtain ⟨-, hdet, horthogonal, hzero⟩ := (cross_law _ _).2 _ hcross
  refine ⟨hcross, hdet ⟨[1, 1, 1]⟩ rfl, horthogonal, fun hdependent => ?_⟩
  exact absurd (hzero.mpr hdependent) (by decide +kernel)

end RatVector

end ExactLinear
