import Mathlib.Algebra.BigOperators.Fin
import Mathlib.Algebra.Field.Rat
import Mathlib.Data.List.GetD
import Mathlib.LinearAlgebra.Matrix.Defs
import Mathlib.Tactic.Ring
import ExactLinear.RatMatrix.Basic

/-!
# Rows as a grid

A list of rows is read through `entryAt`, which is zero outside of the rows. `Rectangular` states
that the rows fill a rectangle; `grid` is the matrix over `Fin` that they then are. Rectangular rows
with the same entries are equal, so what the algorithms do can be stated entry by entry.
-/

namespace ExactLinear

open RatMatrix

/-- The list has `n` rows of `w` entries each. -/
structure Rectangular (n w : ℕ) (rows : List (List ℚ)) : Prop where
  length_eq : rows.length = n
  row_length : ∀ row ∈ rows, row.length = w

/-- The entries in the first `n` rows and `w` columns, as a matrix. -/
def grid (n w : ℕ) (rows : List (List ℚ)) : Matrix (Fin n) (Fin w) ℚ :=
  Matrix.of fun i j => entryAt rows i j

@[simp] theorem grid_apply (n w : ℕ) (rows : List (List ℚ)) (i : Fin n) (j : Fin w) :
    grid n w rows i j = entryAt rows i j := rfl

/-! ## Lists made of the numbers below `n` -/

/-- An item of a list that is made of the numbers below `n`. -/
theorem getD_map_range {α : Type} (f : ℕ → α) (d : α) {n i : ℕ} (hi : i < n) :
    ((List.range n).map f).getD i d = f i := by
  rw [List.getD_eq_getElem _ _ (by simpa using hi), List.getElem_map, List.getElem_range]

/-- An item of a list that is made of a function. -/
theorem getD_ofFn {α : Type} {d : α} {n : ℕ} (v : Fin n → α) (j : Fin n) :
    (List.ofFn v).getD j d = v j := by
  rw [List.getD_eq_getElem _ _ (by simp), List.getElem_ofFn]

/-- When all steps succeed, so does the loop over them. -/
theorem mapM_range_eq_ok {ε α : Type} {n : ℕ} {f : ℕ → Except ε α} {g : Fin n → α}
    (h : ∀ i : Fin n, f i = .ok (g i)) : (List.range n).mapM f = .ok (List.ofFn g) := by
  rw [← List.map_coe_finRange_eq_range, List.mapM_map, List.ofFn_eq_map]
  have hf : (f ∘ Fin.val) = fun i => pure (g i) := funext h
  rw [hf]
  exact List.mapM_pure

/-! ## Entries -/

/-- A row that does not exist reads as zero. -/
theorem entryAt_of_length_le {rows : List (List ℚ)} {i : ℕ} (hi : rows.length ≤ i) (j : ℕ) :
    entryAt rows i j = 0 := by
  rw [entryAt, List.getD_eq_default _ _ hi, List.getD_nil]

/-- A row with an entry other than zero exists. -/
theorem lt_length_of_entryAt_ne_zero {rows : List (List ℚ)} {i j : ℕ}
    (h : entryAt rows i j ≠ 0) : i < rows.length := by
  by_contra hi
  exact h (entryAt_of_length_le (not_lt.mp hi) j)

/-- Lists of one length with the same entries are equal. -/
theorem eq_of_getD_eq {n : ℕ} {x y : List ℚ} (hx : x.length = n) (hy : y.length = n)
    (h : ∀ j < n, x.getD j 0 = y.getD j 0) : x = y := by
  refine List.ext_getElem (hx.trans hy.symm) fun j hj hj' => ?_
  rw [← List.getD_eq_getElem _ 0 hj, ← List.getD_eq_getElem _ 0 hj']
  exact h j (hx ▸ hj)

/-- A row that exists, after the same change of all rows. -/
theorem entryAt_map {rows : List (List ℚ)} {i : ℕ} (hi : i < rows.length)
    (g : List ℚ → List ℚ) (j : ℕ) :
    entryAt (rows.map g) i j = (g (rows.getD i [])).getD j 0 := by
  rw [entryAt, List.getD_eq_getElem (rows.map g) [] (by simpa using hi), List.getElem_map,
    List.getD_eq_getElem _ _ hi]

/-- An entry of a row that is multiplied by a number. -/
theorem getD_map_mul (k : ℚ) (row : List ℚ) (j : ℕ) :
    (row.map (k * ·)).getD j 0 = k * row.getD j 0 := by
  rw [← mul_zero k, List.getD_map, mul_zero]

namespace Rectangular

variable {n w : ℕ} {rows rows' : List (List ℚ)}

/-- The length of a row by its number. -/
theorem length_getD (h : Rectangular n w rows) {i : ℕ} (hi : i < n) :
    (rows.getD i []).length = w := by
  have hi' : i < rows.length := h.length_eq ▸ hi
  rw [List.getD_eq_getElem _ _ hi']
  exact h.row_length _ (List.getElem_mem hi')

/-- A row is at most as long as the grid is wide, also one that does not exist. -/
theorem length_getD_le (h : Rectangular n w rows) (i : ℕ) : (rows.getD i []).length ≤ w := by
  by_cases hi : i < n
  · exact (h.length_getD hi).le
  · rw [List.getD_eq_default _ _ (by rw [h.length_eq]; omega)]
    exact Nat.zero_le w

theorem entryAt_of_rows_le (h : Rectangular n w rows) {i : ℕ} (hi : n ≤ i) (j : ℕ) :
    entryAt rows i j = 0 :=
  entryAt_of_length_le (h.length_eq ▸ hi) j

theorem entryAt_of_cols_le (h : Rectangular n w rows) (i : ℕ) {j : ℕ} (hj : w ≤ j) :
    entryAt rows i j = 0 :=
  List.getD_eq_default _ _ ((h.length_getD_le i).trans hj)

/-- Rectangular rows are determined by their entries. -/
theorem ext (h : Rectangular n w rows) (h' : Rectangular n w rows')
    (heq : ∀ i j, entryAt rows i j = entryAt rows' i j) : rows = rows' := by
  refine List.ext_getElem (h.length_eq.trans h'.length_eq.symm) fun i hi hi' => ?_
  refine eq_of_getD_eq (h.row_length _ (List.getElem_mem hi))
    (h'.row_length _ (List.getElem_mem hi')) fun j _ => ?_
  have hij := heq i j
  rwa [entryAt, entryAt, List.getD_eq_getElem _ _ hi, List.getD_eq_getElem _ _ hi'] at hij

/-- Rows of one length that are made from rectangular ones. -/
theorem map (h : Rectangular n w rows) {f : List ℚ → List ℚ} {w' : ℕ}
    (hf : ∀ row : List ℚ, row.length = w → (f row).length = w') :
    Rectangular n w' (rows.map f) := by
  refine ⟨(List.length_map _).trans h.length_eq, fun row hrow => ?_⟩
  obtain ⟨row, hmem, rfl⟩ := List.mem_map.mp hrow
  exact hf row (h.row_length row hmem)

/-- Rows that fill a rectangle with at least one entry make a matrix. -/
theorem ofRows_eq (h : Rectangular n w rows) (hn : 0 < n) (hw : 0 < w) (augmented : Bool) :
    ofRows rows augmented = .ok ⟨⟨n, w⟩, rows, augmented⟩ := by
  obtain ⟨hlen, hrow⟩ := h
  -- both sides are positive, so there is a first row with an entry
  match rows with
  | [] => simp at hlen; omega
  | [] :: _ => have := hrow [] (by simp); simp at this; omega
  | (x :: row) :: rest =>
    have hfirst : (x :: row).length = w := hrow _ (by simp)
    have hfind : ((x :: row) :: rest).find? (·.length ≠ (x :: row).length) = none := by
      rw [List.find?_eq_none]
      intro r hr
      simp only [hrow r hr, hfirst, ne_eq, not_true_eq_false, decide_false, Bool.false_eq_true,
        not_false_eq_true]
    simp only [ofRows]
    rw [hfind]
    simp only [hlen, hfirst]

end Rectangular

attribute [ext] Shape

attribute [ext] RatMatrix

namespace RatMatrix

variable {m : RatMatrix}

/-- The rows of a well-formed matrix fill its shape. -/
theorem WellFormed.rectangular (h : m.WellFormed) :
    Rectangular m.shape.rows m.shape.cols m.rows :=
  ⟨h.2.2.1, h.2.2.2⟩

/-- The shape of a well-formed matrix is known from its rows. -/
theorem WellFormed.eq_of_rows_eq {n : RatMatrix} (hm : m.WellFormed) (hn : n.WellFormed)
    (hrows : m.rows = n.rows) (haug : m.augmented = n.augmented) : m = n := by
  obtain ⟨hpos, -, hlength, hwidth⟩ := hm
  obtain ⟨-, -, hlength', hwidth'⟩ := hn
  obtain ⟨row, hrow⟩ := List.exists_mem_of_length_pos (hlength ▸ hpos)
  refine RatMatrix.ext (Shape.ext ?_ ?_) hrows haug
  · rw [← hlength, ← hlength', hrows]
  · rw [← hwidth row hrow, ← hwidth' row (hrows ▸ hrow)]

/-- An augmented matrix has one column more than variables. -/
theorem WellFormed.cols_eq (h : m.WellFormed) (haug : m.augmented = true) :
    m.shape.cols = m.variableCount + 1 := by
  have hpos := h.2.1
  rw [variableCount, if_pos haug]
  omega

/-- Every column of a plain matrix belongs to a variable. -/
theorem variableCount_eq_cols (hplain : m.augmented = false) : m.variableCount = m.shape.cols := by
  rw [variableCount, hplain, if_neg Bool.false_ne_true]

end RatMatrix

/-! ## Sums of products -/

/-- A scalar product is the sum of the products of the entries, as far as the second list reaches.
-/
theorem dotProduct_eq_sum (a b : List ℚ) :
    dotProduct a b = ∑ j ∈ Finset.range b.length, a.getD j 0 * b.getD j 0 := by
  induction b generalizing a with
  | nil => cases a <;> rfl
  | cons y ys ih =>
    cases a with
    | nil => simp [dotProduct]
    | cons x xs =>
      have hcons : dotProduct (x :: xs) (y :: ys) = x * y + dotProduct xs ys := rfl
      rw [hcons, ih xs, List.length_cons, Finset.sum_range_succ']
      simp only [List.getD_cons_succ, List.getD_cons_zero]
      ring

end ExactLinear
