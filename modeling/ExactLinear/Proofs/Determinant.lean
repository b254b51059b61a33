import Mathlib.LinearAlgebra.Matrix.Block
import ExactLinear.Proofs.Pivoting

/-!
# The determinant by triangularization

`Triangularized n j d` is the invariant of the elimination behind `determinant`: the rows are zero
below the diagonal in the first `j` columns, and their determinant, with the sign that the exchanges
so far have given it, is `d`. One column exchanges two rows and turns the sign, or leaves both
alone, and then subtracts multiples of one row, which keeps the determinant. At the end the
determinant of the rows is the product of their diagonal, so the result is the determinant of the
rows at the start, which is the sum over the permutations (`RatMatrix.determinant_eq_sum_perm`).
-/

namespace ExactLinear

open RatMatrix (entryAt pivotRow? clearBelow triangularRows)
open RowOp

variable {n j : ℕ} {rows : List (List ℚ)} {d : ℚ} {odd : Bool}

/-- The opposite number after an odd number of exchanges. -/
def turned (odd : Bool) (x : ℚ) : ℚ := if odd then -x else x

theorem turned_bne_true (odd : Bool) (x : ℚ) : turned (odd != true) x = turned odd (-x) := by
  cases odd <;> simp [turned]

/-! ## Row operations and the determinant -/

namespace RowOp

/-- The determinant before an operation is this multiple of the determinant after it: an exchange
turns the sign, and a division divides. -/
def factor : RowOp → ℚ
  | .swap _ _ => -1
  | .divide _ divisor => divisor
  | .subtract _ _ _ => 1

theorem Genuine.factor_mul_det_act {op : RowOp} (hop : op.Genuine n) (h : Rectangular n n rows) :
    op.factor * (grid n n (act rows op)).det = (grid n n rows).det := by
  rw [hop.grid_act h, Matrix.det_mul, ← mul_assoc]
  refine (congrArg (· * _) ?_).trans (one_mul _)
  cases op with
  | swap a b =>
    rw [det_elementary_swap hop.1 hop.2.1 hop.2.2, factor, neg_mul_neg, one_mul]
  | divide r d => rw [det_elementary_divide hop.1, factor, mul_inv_cancel₀ hop.2.1]
  | subtract t s f => rw [det_elementary_subtract hop.1 hop.2.1 hop.2.2.1, factor, one_mul]

/-- The determinant before a list of operations is the product of their factors times the
determinant after them. -/
theorem AllGenuine.prod_factor_mul_det_actAll {ops : List RowOp} (hops : AllGenuine n ops)
    (h : Rectangular n n rows) :
    (ops.map factor).prod * (grid n n (actAll rows ops)).det = (grid n n rows).det := by
  induction ops generalizing rows with
  | nil => exact one_mul _
  | cons op ops ih =>
    obtain ⟨hop, hops⟩ := List.forall_mem_cons.mp hops
    rw [List.map_cons, List.prod_cons, mul_assoc, actAll_cons, ih hops (hop.rectangular h),
      hop.factor_mul_det_act h]

end RowOp

/-- Subtractions of multiples of one row from others keep the determinant. -/
theorem det_subtractions (h : Rectangular n n rows) {s : ℕ} (hs : s < n) (f : ℕ → ℚ)
    {targets : List ℕ} (htargets : ∀ k ∈ targets, k < n ∧ k ≠ s) :
    (grid n n (actAll rows (subtractions s f targets))).det = (grid n n rows).det := by
  rw [← (allGenuine_subtractions hs f htargets).prod_factor_mul_det_actAll h,
    List.prod_eq_one, one_mul]
  intro x hx
  obtain ⟨op, hop, rfl⟩ := List.mem_map.mp hx
  obtain ⟨k, hk, hop⟩ := List.mem_filterMap.mp hop
  split_ifs at hop
  obtain rfl := Option.some.inj hop
  rfl

/-- The quotients by the pivot are zero where the entries are. -/
theorem clearBelow_eq_subtractions (hpivot : entryAt rows j j ≠ 0) :
    clearBelow rows j = subtractions j (fun k => entryAt rows k j / entryAt rows j j)
      (List.range' (j + 1) (rows.length - (j + 1))) := by
  refine List.filterMap_congr fun k _ => ?_
  simp only [div_eq_zero_iff, hpivot, or_false]

/-! ## The columns one after the other -/

/-- In the first `j` columns the rows are zero below the diagonal, and `d` is their determinant with
the sign that the exchanges have given it. -/
structure Triangularized (n j : ℕ) (d : ℚ) (rows : List (List ℚ)) (odd : Bool) : Prop where
  rectangular : Rectangular n n rows
  det_eq : turned odd (grid n n rows).det = d
  below_eq_zero : ∀ c < j, ∀ i, c < i → entryAt rows i c = 0

namespace Triangularized

/-- Before the first column only the rectangle is required. -/
theorem zero (h : Rectangular n n rows) : Triangularized n 0 (grid n n rows).det rows false where
  rectangular := h
  det_eq := rfl
  below_eq_zero _ hc := absurd hc (Nat.not_lt_zero _)

/-- A column without a pivot is zero below the diagonal already. -/
theorem skip (ht : Triangularized n j d rows odd) (hnone : pivotRow? rows j j = none) :
    Triangularized n (j + 1) d rows odd where
  rectangular := ht.rectangular
  det_eq := ht.det_eq
  below_eq_zero c hc i hi := by
    rcases Nat.lt_succ_iff_lt_or_eq.mp hc with hc | rfl
    · exact ht.below_eq_zero c hc i hi
    · exact entryAt_eq_zero_of_pivotRow?_eq_none hnone hi.le

/-- An exchange of row `j` with a row below it keeps the invariant, when it is counted. -/
theorem exchange (ht : Triangularized n j d rows odd) {p : ℕ} (hjp : j ≤ p) (hp : p < n) :
    Triangularized n j d (if p = j then rows else act rows (.swap p j)) (odd != (p != j)) := by
  by_cases hpj : p = j
  · rw [if_pos hpj, hpj, bne_self_eq_false, Bool.bne_false]
    exact ht
  have hj : j < n := hjp.trans_lt hp
  have h := ht.rectangular
  have hgen : (RowOp.swap p j).Genuine n := ⟨hp, hj, hpj⟩
  rw [if_neg hpj, bne_iff_ne.mpr hpj]
  constructor
  case rectangular => exact hgen.rectangular h
  case det_eq =>
    rw [turned_bne_true, ← neg_one_mul, ← ht.det_eq, ← hgen.factor_mul_det_act h, factor]
  case below_eq_zero =>
    intro c hc i hi
    rw [entryAt_act_swap (h.length_eq.symm ▸ hp) (h.length_eq.symm ▸ hj)]
    -- both rows lie below the diagonal of the columns that are done
    refine ht.below_eq_zero c hc _ ?_
    rw [Equiv.swap_apply_def]
    split_ifs <;> omega

/-- Clearing a column below its pivot extends the triangle by this column. -/
theorem clear (ht : Triangularized n j d rows odd) (hj : j < n) (hpivot : entryAt rows j j ≠ 0) :
    Triangularized n (j + 1) d (actAll rows (clearBelow rows j)) odd := by
  have h := ht.rectangular
  have htargets : ∀ k ∈ List.range' (j + 1) (rows.length - (j + 1)), k < n ∧ k ≠ j :=
    fun k hk => ⟨(h.mem_rowsBelow_iff.mp hk).2, (h.mem_rowsBelow_iff.mp hk).1.ne'⟩
  rw [clearBelow_eq_subtractions hpivot]
  constructor
  case rectangular => exact (allGenuine_subtractions hj _ htargets).rectangular h
  case det_eq => rw [det_subtractions h hj _ htargets, ht.det_eq]
  case below_eq_zero =>
    intro c hc i hi
    rw [entryAt_subtractions h hj _ htargets List.nodup_range']
    simp only [h.mem_rowsBelow_iff]
    rcases Nat.lt_succ_iff_lt_or_eq.mp hc with hc | rfl
    · rw [ht.below_eq_zero c hc i hi, ht.below_eq_zero c hc j hc]
      split_ifs
      · ring
      · rfl
    · split_ifs with htarget
      · rw [div_mul_cancel₀ _ hpivot, sub_self]
      · exact h.entryAt_of_rows_le (by omega) c

/-- The elimination extends the triangle over all its columns. -/
theorem triangularRows (ht : Triangularized n j d rows odd) (k : ℕ) (hk : j + k ≤ n) :
    Triangularized n (j + k) d (RatMatrix.triangularRows (List.range' j k) (rows, odd)).1
      (RatMatrix.triangularRows (List.range' j k) (rows, odd)).2 := by
  -- over the columns that are left; each of them changes the rows and may turn the sign
  induction k generalizing j rows odd with
  | zero => exact ht
  | succ k ih =>
    rw [List.range'_succ, ← Nat.add_assoc, Nat.add_right_comm]
    unfold RatMatrix.triangularRows
    cases hpivot : pivotRow? rows j j with
    | none => exact ih (ht.skip hpivot) (by omega)
    | some p =>
      obtain ⟨hjp, hp, hne⟩ := pivotRow?_spec hpivot
      rw [ht.rectangular.length_eq] at hp
      have hexchange := ht.exchange hjp hp
      refine ih (hexchange.clear (by omega) ?_) (by omega)
      split_ifs with hpj
      · rwa [hpj] at hne
      · have hlen := ht.rectangular.length_eq.symm
        rwa [entryAt_act_swap (hlen ▸ hp) (hlen ▸ (by omega : j < n)), Equiv.swap_apply_right]

/-- Below the diagonal of the last column there is nothing: the determinant is the product of the
diagonal. -/
theorem eq_turned_prod (ht : Triangularized n n d rows odd) :
    d = turned odd (∏ i : Fin n, entryAt rows i i) := by
  have hupper : (grid n n rows).IsUpperTriangular :=
    fun i c hci => ht.below_eq_zero c c.isLt i hci
  rw [← ht.det_eq, Matrix.det_of_isUpperTriangular hupper]
  rfl

end Triangularized

namespace RatMatrix

/-- The elimination of a square matrix, whatever its flag is, ends with a triangle and the parity of
its exchanges. -/
theorem triangularized_triangular (h : Rectangular n n rows) (flag : Bool) :
    ∃ rows' odd, triangular ⟨⟨n, n⟩, rows, flag⟩ = .ok (⟨⟨n, n⟩, rows', flag⟩, odd) ∧
      Triangularized n n (grid n n rows).det rows' odd := by
  have ht := (Triangularized.zero h).triangularRows n (by omega)
  rw [Nat.zero_add, ← List.range_eq_range'] at ht
  exact ⟨_, _, by simp [triangular, isSquare], ht⟩

/-- The elimination behind `determinant` computes the determinant. -/
theorem determinant_eq_det (h : Rectangular n n rows) :
    determinant ⟨⟨n, n⟩, rows, false⟩ = .ok (grid n n rows).det := by
  obtain ⟨rows', odd, htriangular, ht⟩ := triangularized_triangular h false
  have hdiagonal : product (diagonal ⟨⟨n, n⟩, rows', false⟩) = ∏ i : Fin n, entryAt rows' i i := by
    rw [← Finset.prod_range fun i => entryAt rows' i i, ← List.toFinset_range,
      List.prod_toFinset _ List.nodup_range]
    rfl
  rw [ht.eq_turned_prod, ← hdiagonal, determinant, htriangular]
  rfl

/-! ## The sum over the permutations -/

/-- The determinant of the grid, with one factor from each row. -/
theorem det_grid_eq_sum (n : ℕ) (rows : List (List ℚ)) :
    (grid n n rows).det = ∑ σ : Equiv.Perm (Fin n),
      ((Equiv.Perm.sign σ : ℤ) : ℚ) * ∏ i : Fin n, entryAt rows i (σ i) := by
  -- the library takes one factor from each column, which is the sum for the transposed matrix
  rw [← Matrix.det_transpose, Matrix.det_apply']
  rfl

/-- **The determinant is the sum over the permutations.** For a plain square matrix `determinant`
succeeds with this sum. The triangular form has the shape and the flag of the matrix and zeros below
its diagonal, also where a column without a pivot was passed over, and the product of its diagonal
is the determinant, with the opposite sign exactly when the flag for the exchanges is set. -/
theorem determinant_eq_sum_perm (n : ℕ) (m : RatMatrix) (hm : m.WellFormed)
    (hshape : m.shape = ⟨n, n⟩) (hplain : m.augmented = false) :
    ∃ d, m.determinant = .ok d ∧
      d = ∑ σ : Equiv.Perm (Fin n),
        ((Equiv.Perm.sign σ : ℤ) : ℚ) * ∏ i : Fin n, entryAt m.rows i (σ i) ∧
      ∃ t odd, m.triangular = .ok (t, odd) ∧
        t.WellFormed ∧ t.shape = m.shape ∧ t.augmented = m.augmented ∧
        (∀ i j, j < i → i < n → entryAt t.rows i j = 0) ∧
        d = if odd then -∏ i : Fin n, entryAt t.rows i i else ∏ i : Fin n, entryAt t.rows i i := by
  have h := hm.rectangular
  obtain ⟨shape, rows, flag⟩ := m
  obtain rfl := hshape
  obtain rfl := hplain
  obtain ⟨rows', odd, htriangular, ht⟩ := triangularized_triangular h false
  refine ⟨_, determinant_eq_det h, det_grid_eq_sum n rows, _, odd, htriangular, ?_, rfl, rfl, ?_,
    ht.eq_turned_prod⟩
  · exact ⟨hm.1, hm.2.1, ht.rectangular.length_eq, ht.rectangular.row_length⟩
  · exact fun i j hji hi => ht.below_eq_zero j (hji.trans hi) i hji

/-- A column without a pivot is passed over, and the next one is cleared after an exchange. -/
theorem determinant_eq_sum_perm_of_zero_column :
    (⟨⟨3, 3⟩, [[0, 1, 2], [0, 3, 4], [0, 5, 6]], false⟩ : RatMatrix).triangular =
        .ok (⟨⟨3, 3⟩, [[0, 1, 2], [0, 5, 6], [0, 0, 2 / 5]], false⟩, true) ∧
      ∑ σ : Equiv.Perm (Fin 3), ((Equiv.Perm.sign σ : ℤ) : ℚ) *
        ∏ i : Fin 3, entryAt [[0, 1, 2], [0, 3, 4], [0, 5, 6]] i (σ i) = 0 := by
  have hvalue : (⟨⟨3, 3⟩, [[0, 1, 2], [0, 3, 4], [0, 5, 6]], false⟩ : RatMatrix).triangular =
      .ok (⟨⟨3, 3⟩, [[0, 1, 2], [0, 5, 6], [0, 0, 2 / 5]], false⟩, true) := by decide +kernel
  obtain ⟨d, hd, hsum, t, odd, htriangular, -, -, -, -, hprod⟩ :=
    determinant_eq_sum_perm 3 ⟨⟨3, 3⟩, [[0, 1, 2], [0, 3, 4], [0, 5, 6]], false⟩ (by decide) rfl rfl
  obtain ⟨rfl, rfl⟩ := Prod.mk.inj (Except.ok.inj (hvalue.symm.trans htriangular))
  refine ⟨hvalue, hsum.symm.trans (hprod.trans ?_)⟩
  simp [Fin.prod_univ_succ, entryAt]

end RatMatrix

end ExactLinear
