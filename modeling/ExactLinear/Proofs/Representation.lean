import Mathlib.LinearAlgebra.Matrix.NonsingularInverse
import ExactLinear.RatMatrix.Algebra
import ExactLinear.Proofs.Determinant

/-!
# Matrices over `Fin` behind the rows

`Represents` says that a matrix has the size and the entries of a matrix over `Fin`, and leaves its
flag open. A well-formed matrix represents its grid, and matrices that represent the same one have
the same entries. Each operation succeeds on operands that fit and represents what it is named for:
the product with a matrix or a vector, the identity, a multiple, what remains without a column or
without a row and a column, the adjugate, the inverse.
-/

namespace ExactLinear

variable {n k w : ℕ}

/-- Rectangular rows are determined by their grid. -/
theorem Rectangular.eq_of_grid_eq {rows rows' : List (List ℚ)} (h : Rectangular n w rows)
    (h' : Rectangular n w rows') (heq : grid n w rows = grid n w rows') : rows = rows' := by
  refine h.ext h' fun i j => ?_
  by_cases hi : i < n
  · by_cases hj : j < w
    · exact congrFun (congrFun heq ⟨i, hi⟩) ⟨j, hj⟩
    · rw [h.entryAt_of_cols_le i (not_lt.mp hj), h'.entryAt_of_cols_le i (not_lt.mp hj)]
  · rw [h.entryAt_of_rows_le (not_lt.mp hi), h'.entryAt_of_rows_le (not_lt.mp hi)]

namespace RatMatrix

variable {a b m : RatMatrix}

/-- The matrix has the size and the entries of `A`, whatever its flag is. -/
structure Represents (m : RatMatrix) (A : Matrix (Fin n) (Fin w) ℚ) : Prop where
  shape_eq : m.shape = ⟨n, w⟩
  rectangular : Rectangular n w m.rows
  grid_eq : grid n w m.rows = A

/-- A well-formed matrix represents its grid. -/
theorem WellFormed.represents (hm : m.WellFormed) :
    m.Represents (grid m.shape.rows m.shape.cols m.rows) :=
  ⟨rfl, hm.rectangular, rfl⟩

theorem WellFormed.represents_of_shape_eq (hm : m.WellFormed) (hshape : m.shape = ⟨n, w⟩) :
    m.Represents (grid n w m.rows) := by
  have hrect := hm.rectangular
  rw [hshape] at hrect
  exact ⟨hshape, hrect, rfl⟩

namespace Represents

variable {A : Matrix (Fin n) (Fin w) ℚ}

theorem entryAt_eq (h : m.Represents A) (i : Fin n) (j : Fin w) : entryAt m.rows i j = A i j := by
  rw [← h.grid_eq, grid_apply]

/-- A matrix with a row and a column that represents another one is well-formed. -/
theorem wellFormed (h : m.Represents A) (hn : 0 < n) (hw : 0 < w) : m.WellFormed := by
  rw [RatMatrix.WellFormed, h.shape_eq]
  exact ⟨hn, hw, h.rectangular.length_eq, h.rectangular.row_length⟩

/-- Matrices that represent the same one have the same entries. -/
theorem sameEntries_eq_true (h : a.Represents A) (h' : b.Represents A) :
    a.sameEntries b = true := by
  have hrows := h.rectangular.eq_of_grid_eq h'.rectangular (h.grid_eq.trans h'.grid_eq.symm)
  rw [sameEntries, h.shape_eq, h'.shape_eq, hrows]
  simp

/-- Matrices with one flag that represent the same one are equal. -/
theorem eq_of_augmented_eq (h : a.Represents A) (h' : b.Represents A)
    (hflag : a.augmented = b.augmented) : a = b :=
  RatMatrix.ext (h.shape_eq.trans h'.shape_eq.symm)
    (h.rectangular.eq_of_grid_eq h'.rectangular (h.grid_eq.trans h'.grid_eq.symm)) hflag

/-- The flag does not count. -/
theorem withAugmented (h : m.Represents A) (flag : Bool) : (m.withAugmented flag).Represents A :=
  ⟨h.shape_eq, h.rectangular, h.grid_eq⟩

/-- A multiple represents the multiple. -/
theorem scale (h : m.Represents A) (c : ℚ) : (m.scale c).Represents (c • A) := by
  refine ⟨h.shape_eq, h.rectangular.map fun row hrow => (List.length_map _).trans hrow, ?_⟩
  ext i j
  rw [grid_apply, RatMatrix.scale, entryAt_map (h.rectangular.length_eq.symm ▸ i.isLt),
    getD_map_mul, Matrix.smul_apply, ← h.entryAt_eq i j]
  rfl

/-- The product represents the product, and has the flag of the left factor. -/
theorem mul {B : Matrix (Fin w) (Fin k) ℚ} (ha : a.Represents A) (hb : b.Represents B) :
    ∃ c, a.mul b = .ok c ∧ c.Represents (A * B) ∧ c.augmented = a.augmented := by
  rw [RatMatrix.mul, ha.shape_eq, hb.shape_eq, if_pos rfl]
  refine ⟨_, rfl, ⟨rfl, ha.rectangular.map fun row _ => by simp, ?_⟩, rfl⟩
  ext i j
  have hcolumn : ∀ l, (b.column j).getD l 0 = entryAt b.rows l j :=
    fun l => List.getD_map b.rows [] fun row => row.getD j 0
  have hlen : (b.column j).length = w := by
    rw [column, List.length_map, hb.rectangular.length_eq]
  rw [grid_apply, entryAt_map (ha.rectangular.length_eq.symm ▸ i.isLt),
    getD_map_range _ _ j.isLt, dotProduct_eq_sum, hlen, Finset.sum_range, Matrix.mul_apply]
  refine Finset.sum_congr rfl fun l _ => ?_
  rw [hcolumn, hb.entryAt_eq, ← ha.entryAt_eq, entryAt]

/-- The product with a vector has the components of the product. -/
theorem mulVector (h : m.Represents A) (hn : 0 < n) {v : RatVector} (hv : v.length = w) :
    ∃ u, m.mulVector v = .ok u ∧
      u.entries = List.ofFn (A.mulVec fun j => v.entries.getD j 0) := by
  have hentries : m.rows.map (dotProduct · v.entries) =
      List.ofFn (A.mulVec fun j => v.entries.getD j 0) := by
    refine List.ext_getElem (by simp [h.rectangular.length_eq]) fun i hi hi' => ?_
    have hrow : i < m.rows.length := by rwa [List.length_map] at hi
    rw [List.getElem_map, List.getElem_ofFn, dotProduct_eq_sum, show v.entries.length = w from hv,
      Finset.sum_range]
    refine Finset.sum_congr rfl fun j _ => congrArg (· * v.entries.getD j 0) ?_
    rw [← List.getD_eq_getElem _ [] hrow]
    exact h.entryAt_eq ⟨i, h.rectangular.length_eq ▸ hrow⟩ j
  have hne : (List.ofFn (A.mulVec fun j => v.entries.getD j 0)).isEmpty = false := by
    rw [List.isEmpty_eq_false_iff, ← List.length_pos_iff, List.length_ofFn]
    exact hn
  rw [RatMatrix.mulVector, h.shape_eq, if_pos hv.symm, RatVector.ofList, hentries, hne]
  exact ⟨_, rfl, rfl⟩

/-- The determinant of a plain matrix. -/
theorem determinant_eq {A : Matrix (Fin n) (Fin n) ℚ} (h : m.Represents A)
    (hplain : m.augmented = false) : m.determinant = .ok A.det := by
  obtain ⟨shape, rows, flag⟩ := m
  obtain ⟨rfl, hrect, rfl⟩ := h
  obtain rfl := hplain
  exact determinant_eq_det hrect

end Represents

/-! ## Matrices made from rows -/

/-- Rows that fill a rectangle with at least one entry make a matrix that represents their grid. -/
theorem represents_ofRows {rows : List (List ℚ)} (h : Rectangular n w rows) (hn : 0 < n)
    (hw : 0 < w) (flag : Bool) :
    ∃ c, ofRows rows flag = .ok c ∧ c.Represents (grid n w rows) ∧ c.augmented = flag :=
  ⟨_, h.ofRows_eq hn hw flag, ⟨rfl, h, rfl⟩, rfl⟩

/-- The rows of a matrix over `Fin` make a matrix that represents it. -/
theorem represents_ofFn (A : Matrix (Fin n) (Fin w) ℚ) (hn : 0 < n) (hw : 0 < w) (flag : Bool) :
    ∃ c, ofRows (List.ofFn fun i => List.ofFn fun j => A i j) flag = .ok c ∧ c.Represents A ∧
      c.augmented = flag := by
  have hrect : Rectangular n w (List.ofFn fun i => List.ofFn fun j => A i j) := by
    refine ⟨List.length_ofFn, fun row hrow => ?_⟩
    obtain ⟨i, rfl⟩ := List.mem_ofFn.mp hrow
    exact List.length_ofFn
  have hgrid : grid n w (List.ofFn fun i => List.ofFn fun j => A i j) = A := by
    ext i j
    rw [grid_apply, entryAt, getD_ofFn, getD_ofFn]
  have hmatrix := represents_ofRows hrect hn hw flag
  rwa [hgrid] at hmatrix

/-- The identity represents the identity. -/
theorem represents_identity (hn : 0 < n) :
    ∃ c, identity n = .ok c ∧ c.Represents (1 : Matrix (Fin n) (Fin n) ℚ) ∧
      c.augmented = false := by
  have hrect : Rectangular n n
      ((List.range n).map fun i => (List.range n).map fun j => if i = j then (1 : ℚ) else 0) := by
    refine ⟨by simp, fun row hrow => ?_⟩
    obtain ⟨i, -, rfl⟩ := List.mem_map.mp hrow
    simp
  have hgrid : grid n n ((List.range n).map fun i =>
      (List.range n).map fun j => if i = j then (1 : ℚ) else 0) = 1 := by
    ext i j
    rw [grid_apply, entryAt, getD_map_range _ _ i.isLt, getD_map_range _ _ j.isLt,
      Matrix.one_apply]
    simp only [Fin.ext_iff]
  have hmatrix := represents_ofRows hrect hn hn false
  rwa [hgrid] at hmatrix

/-! ## Parts of a matrix -/

/-- Without the item at a place, a list is read past this place. -/
theorem getD_eraseIdx {α : Type} (l : List α) (i : Fin (n + 1)) (j : Fin n) (d : α) :
    (l.eraseIdx i).getD j d = l.getD (i.succAbove j) d := by
  rw [List.getD_eq_getElem?_getD, List.getD_eq_getElem?_getD, List.getElem?_eraseIdx,
    Fin.succAbove]
  split_ifs with hlt hlt' hlt'
  · rfl
  · exact absurd hlt hlt'
  · exact absurd hlt' hlt
  · rfl

/-- Without one column the rows fill a rectangle, with the other columns of the grid. -/
theorem grid_map_eraseIdx {rows : List (List ℚ)} (h : Rectangular n (w + 1) rows)
    (j : Fin (w + 1)) :
    Rectangular n w (rows.map (·.eraseIdx j)) ∧
      grid n w (rows.map (·.eraseIdx j)) = (grid n (w + 1) rows).submatrix id j.succAbove := by
  constructor
  · refine h.map fun row hrow => ?_
    rw [List.length_eraseIdx, hrow, if_pos j.isLt, Nat.add_sub_cancel]
  · ext i l
    rw [grid_apply, entryAt_map (h.length_eq.symm ▸ i.isLt), getD_eraseIdx,
      Matrix.submatrix_apply, grid_apply, entryAt, id]

/-- What remains without a column represents the submatrix. -/
theorem Represents.withoutColumn {A : Matrix (Fin n) (Fin (w + 1)) ℚ} (h : m.Represents A)
    (hn : 0 < n) (hw : 0 < w) (j : Fin (w + 1)) :
    ∃ c, m.withoutColumn j = .ok c ∧ c.Represents (A.submatrix id j.succAbove) ∧
      c.augmented = false := by
  obtain ⟨hrect, hgrid⟩ := grid_map_eraseIdx h.rectangular j
  have hmatrix := represents_ofRows hrect hn hw false
  rw [hgrid, h.grid_eq] at hmatrix
  rwa [RatMatrix.withoutColumn, h.shape_eq, if_neg (by simp [j.is_le])]

/-- The coefficients of a system represent all columns but the last one. -/
theorem Represents.coefficients {A : Matrix (Fin n) (Fin (w + 1)) ℚ} (h : m.Represents A)
    (haug : m.augmented = true) (hn : 0 < n) (hw : 0 < w) :
    ∃ c, m.coefficients = .ok c ∧ c.Represents (A.submatrix id Fin.castSucc) ∧
      c.augmented = false := by
  have hlast := h.withoutColumn hn hw (Fin.last w)
  rw [Fin.succAbove_last, Fin.val_last] at hlast
  rwa [RatMatrix.coefficients, if_pos haug, h.shape_eq, Nat.add_sub_cancel]

/-- What remains without a row and a column represents the submatrix. -/
theorem Represents.minor {A : Matrix (Fin (n + 1)) (Fin (n + 1)) ℚ} (h : m.Represents A)
    (hn : 0 < n) (i j : Fin (n + 1)) :
    ∃ c, m.minor i j = .ok c ∧ c.Represents (A.submatrix i.succAbove j.succAbove) ∧
      c.augmented = false := by
  have hlen : (m.rows.eraseIdx i).length = n := by
    rw [List.length_eraseIdx, h.rectangular.length_eq, if_pos i.isLt, Nat.add_sub_cancel]
  have hrows : Rectangular n (n + 1) (m.rows.eraseIdx i) :=
    ⟨hlen, fun row hrow => h.rectangular.row_length row (List.mem_of_mem_eraseIdx hrow)⟩
  obtain ⟨hrect, hcolumns⟩ := grid_map_eraseIdx hrows j
  have hgrid : (grid n (n + 1) (m.rows.eraseIdx i)).submatrix id j.succAbove =
      A.submatrix i.succAbove j.succAbove := by
    ext k l
    rw [Matrix.submatrix_apply, grid_apply, entryAt, id, getD_eraseIdx, Matrix.submatrix_apply,
      ← h.entryAt_eq, entryAt]
  have hmatrix := represents_ofRows hrect hn hn false
  rw [hcolumns, hgrid] at hmatrix
  rwa [RatMatrix.minor, h.shape_eq, if_neg (by simp [i.is_le, j.is_le])]

/-! ## The adjugate and the inverse -/

/-- The signs of the chessboard are the powers of minus one. -/
theorem withSign_eq (k : ℕ) (x : ℚ) : withSign k x = (-1) ^ k * x := by
  rw [withSign]
  split_ifs with hk
  · rw [(Nat.even_iff.mpr hk).neg_one_pow, one_mul]
  · rw [(Nat.odd_iff.mpr (Nat.mod_two_ne_zero.mp hk)).neg_one_pow, neg_one_mul]

/-- An entry of the adjugate is the determinant of a submatrix, with the sign of its place. -/
theorem Represents.cofactor {A : Matrix (Fin (n + 1)) (Fin (n + 1)) ℚ} (h : m.Represents A)
    (hn : 0 < n) (i j : Fin (n + 1)) :
    (do let d ← (← m.minor j i).determinant; return withSign (i + j) d) =
      (.ok (A.adjugate i j) : Except LinearError ℚ) := by
  obtain ⟨c, hminor, hc, hplain⟩ := h.minor hn j i
  rw [hminor]
  simp only [bind, Except.bind, hc.determinant_eq hplain]
  rw [withSign_eq, Matrix.adjugate_fin_succ_eq_det_submatrix, Nat.add_comm]
  rfl

/-- The adjugate represents the adjugate. -/
theorem Represents.adjugate {A : Matrix (Fin n) (Fin n) ℚ} (h : m.Represents A) (hn : 0 < n) :
    ∃ c, m.adjugate = .ok c ∧ c.Represents A.adjugate ∧ c.augmented = false := by
  obtain ⟨n, rfl⟩ := Nat.exists_eq_succ_of_ne_zero hn.ne'
  have hsquare : (!m.isSquare) = false := by simp [isSquare, h.shape_eq]
  rw [RatMatrix.adjugate, hsquare, h.shape_eq]
  by_cases hone : n = 0
  · subst hone
    have hidentity := represents_identity (Nat.succ_pos 0)
    rwa [← Matrix.adjugate_fin_one A] at hidentity
  · have hcofactor := h.cofactor (Nat.pos_of_ne_zero hone)
    simp only [Bool.false_eq_true, if_false, Nat.succ_eq_add_one, Nat.add_eq_right, hone]
    rw [mapM_range_eq_ok (g := fun i => List.ofFn fun j => A.adjugate i j) fun i =>
      mapM_range_eq_ok (g := fun j => A.adjugate i j) (hcofactor i)]
    exact represents_ofFn A.adjugate hn hn false

/-- The inverse is the adjugate divided by the determinant, unless the latter is zero. -/
theorem Represents.inverse_eq {A : Matrix (Fin n) (Fin n) ℚ} (h : m.Represents A) (hn : 0 < n) :
    ∃ adj, m.adjugate = .ok adj ∧ adj.Represents A.adjugate ∧ adj.augmented = false ∧
      m.inverse = if A.det = 0 then .error .singular
        else .ok ⟨adj.scale A.det⁻¹, adj, A.det⟩ := by
  obtain ⟨adj, hadj, hrepr, hplain⟩ := h.adjugate hn
  refine ⟨adj, hadj, hrepr, hplain, ?_⟩
  rw [RatMatrix.inverse, (h.withAugmented false).determinant_eq rfl, hadj]
  by_cases hdet : A.det = 0
  · simp only [bind, Except.bind, if_pos hdet]
    rfl
  · simp only [bind, Except.bind, if_neg hdet]
    rfl

/-- The inverse of a matrix whose determinant is not zero represents the inverse. -/
theorem Represents.inverse {A : Matrix (Fin n) (Fin n) ℚ} (h : m.Represents A) (hn : 0 < n)
    (hdet : A.det ≠ 0) : ∃ r, m.inverse = .ok r ∧ r.inverse.Represents A⁻¹ := by
  obtain ⟨adj, -, hrepr, -, hinverse⟩ := h.inverse_eq hn
  refine ⟨_, hinverse.trans (if_neg hdet), ?_⟩
  rw [Matrix.inv_def, Ring.inverse_eq_inv']
  exact hrepr.scale _

end RatMatrix

end ExactLinear
