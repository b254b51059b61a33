import Mathlib.LinearAlgebra.Span.Basic
import Mathlib.Order.WellFounded
import ExactLinear.Proofs.Reduction

/-!
# Row spaces

`rowSpace` is what the rows span, read as functions on the columns, so that lists of different
lengths can be compared. Genuine operations do not change it. Reduced rows can be recovered from it:
their leads are the columns in which its elements begin (`Reduced.exists_lead_eq_iff`), and an
element is determined by its entries there (`Reduced.unique`).
-/

namespace ExactLinear

open RatMatrix (entryAt)
open RowOp Finset

variable {n n' w vars r r' : ℕ} {lead lead' : ℕ → ℕ} {rows rows' : List (List ℚ)}

/-- The space that the rows span. -/
def rowSpace (rows : List (List ℚ)) : Submodule ℚ (ℕ → ℚ) :=
  Submodule.span ℚ (Set.range (entryAt rows))

theorem entryAt_mem_rowSpace (rows : List (List ℚ)) (i : ℕ) : entryAt rows i ∈ rowSpace rows :=
  Submodule.subset_span ⟨i, rfl⟩

/-! ## Operations keep the row space -/

/-- A product has its rows in the space of the right factor. -/
theorem rowSpace_le_of_grid_eq (h : Rectangular n w rows) (h' : Rectangular n' w rows')
    (P : Matrix (Fin n') (Fin n) ℚ) (hP : grid n' w rows' = P * grid n w rows) :
    rowSpace rows' ≤ rowSpace rows := by
  refine Submodule.span_le.mpr ?_
  rintro _ ⟨i, rfl⟩
  by_cases hi : i < n'
  · have hrow : entryAt rows' i = ∑ k : Fin n, P ⟨i, hi⟩ k • entryAt rows k := by
      funext j
      rw [Finset.sum_apply]
      by_cases hj : j < w
      · have hij := congrFun (congrFun hP ⟨i, hi⟩) ⟨j, hj⟩
        rwa [grid_apply, Matrix.mul_apply] at hij
      · simp [h.entryAt_of_cols_le _ (not_lt.mp hj), h'.entryAt_of_cols_le _ (not_lt.mp hj)]
    rw [hrow]
    exact Submodule.sum_mem _ fun k _ => Submodule.smul_mem _ _ (entryAt_mem_rowSpace rows k)
  · have hrow : entryAt rows' i = 0 := funext fun j => h'.entryAt_of_rows_le (not_lt.mp hi) j
    rw [hrow]
    exact Submodule.zero_mem _

/-- Genuine operations keep the row space. -/
theorem rowSpace_actAll {ops : List RowOp} (hops : AllGenuine n ops) (h : Rectangular n w rows) :
    rowSpace (actAll rows ops) = rowSpace rows := by
  have h' := hops.rectangular h
  have hgrid := hops.grid_actAll h
  obtain ⟨u, hu⟩ := hops.isUnit_elementaryAll
  rw [← hu] at hgrid
  -- the inverse leads back, so the product has the same space and not a smaller one
  refine le_antisymm (rowSpace_le_of_grid_eq h h' _ hgrid) (rowSpace_le_of_grid_eq h' h ↑u⁻¹ ?_)
  rw [hgrid, ← Matrix.mul_assoc, Units.inv_mul, Matrix.one_mul]

/-- A reduction keeps the row space. -/
theorem rowSpace_reduce {m : RatMatrix} (hm : m.WellFormed) :
    rowSpace m.reduce.matrix.rows = rowSpace m.rows := by
  obtain ⟨hgen, heq⟩ := m.reduce_eq hm
  rw [heq]
  exact rowSpace_actAll hgen hm.rectangular

/-- Past the last column the combinations of the rows are zero, as the rows are. -/
theorem Rectangular.eq_zero_of_mem_rowSpace (h : Rectangular n w rows) {v : ℕ → ℚ}
    (hv : v ∈ rowSpace rows) {j : ℕ} (hj : w ≤ j) : v j = 0 := by
  induction hv using Submodule.span_induction with
  | mem v hv =>
    obtain ⟨i, rfl⟩ := hv
    exact h.entryAt_of_cols_le i hj
  | zero => rfl
  | add u v _ _ hu hv => rw [Pi.add_apply, hu, hv, add_zero]
  | smul a v _ hv => rw [Pi.smul_apply, hv, smul_zero]

/-! ## Reduced rows are determined by their space -/

/-- An element of the space has its first entry other than zero in column `c`. -/
def BeginsAt (p : Submodule ℚ (ℕ → ℚ)) (c : ℕ) : Prop :=
  ∃ v ∈ p, v c ≠ 0 ∧ ∀ j < c, v j = 0

namespace Reduced

/-- On the variable columns an element of the space is the combination of the rows with its entries
at the leads. -/
theorem entry_eq_sum (hs : Reduced vars r lead rows) {v : ℕ → ℚ} (hv : v ∈ rowSpace rows) {c : ℕ}
    (hc : c < vars) : v c = ∑ i ∈ range r, v (lead i) * entryAt rows i c := by
  induction hv using Submodule.span_induction with
  | mem v hv =>
    obtain ⟨k, rfl⟩ := hv
    rcases lt_or_ge k r with hk | hk
    · rw [Finset.sum_eq_single_of_mem k (mem_range.mpr hk), hs.lead_eq_one k hk, one_mul]
      intro i hi hik
      rw [hs.column (mem_range.mp hi) (Ne.symm hik), zero_mul]
    · rw [hs.rest_eq_zero k hk c hc, Finset.sum_eq_zero]
      intro i hi
      rw [hs.rest_eq_zero k hk _ (hs.lead_lt i (mem_range.mp hi)), zero_mul]
  | zero => simp
  | add u v _ _ hu hv =>
    simp only [Pi.add_apply, add_mul, Finset.sum_add_distrib]
    rw [← hu, ← hv]
  | smul a v _ hv =>
    simp only [Pi.smul_apply, smul_eq_mul, mul_assoc, ← Finset.mul_sum]
    rw [← hv]

/-- The leads are the variable columns in which elements of the space begin. -/
theorem exists_lead_eq_iff (hs : Reduced vars r lead rows) {c : ℕ} (hc : c < vars) :
    (∃ i < r, lead i = c) ↔ BeginsAt (rowSpace rows) c := by
  constructor
  · rintro ⟨i, hi, rfl⟩
    refine ⟨entryAt rows i, entryAt_mem_rowSpace rows i, ?_, hs.before_lead i hi⟩
    rw [hs.lead_eq_one i hi]
    exact one_ne_zero
  · rintro ⟨v, hv, hne, hbefore⟩
    by_contra! hno
    -- a row that leads before `c` has coefficient zero, and one that leads after it is zero at `c`
    refine hne ?_
    rw [hs.entry_eq_sum hv hc]
    refine Finset.sum_eq_zero fun i hi => ?_
    have hi := mem_range.mp hi
    rcases lt_or_gt_of_ne (hno i hi) with hlt | hgt
    · rw [hbefore _ hlt, zero_mul]
    · rw [hs.before_lead i hi c hgt, mul_zero]

end Reduced

theorem strictMono_of_ascends (hlead : ∀ i k, i < k → k < r → lead i < lead k) :
    StrictMono fun k : Fin r => lead k :=
  fun i k hik => hlead i k hik k.isLt

/-- An ascending sequence has as many values as it has members. -/
theorem card_image_of_ascends (hlead : ∀ i k, i < k → k < r → lead i < lead k) :
    ((range r).image lead).card = r := by
  rw [Finset.card_image_of_injOn, card_range]
  intro i hi k hk hik
  rw [coe_range, Set.mem_Iio] at hi hk
  have hmk : (⟨i, hi⟩ : Fin r) = ⟨k, hk⟩ := (strictMono_of_ascends hlead).injective hik
  exact Fin.mk.inj hmk

/-- Two ascending sequences with the same values have the same length and agree. -/
theorem eq_of_ascends (hlead : ∀ i k, i < k → k < r → lead i < lead k)
    (hlead' : ∀ i k, i < k → k < r' → lead' i < lead' k)
    (heq : ∀ c, (∃ i < r, lead i = c) ↔ ∃ i < r', lead' i = c) :
    r = r' ∧ ∀ i < r, lead i = lead' i := by
  have himage : (range r).image lead = (range r').image lead' := by
    ext c
    simpa using heq c
  obtain rfl : r = r' := by
    rw [← card_image_of_ascends hlead, himage, card_image_of_ascends hlead']
  refine ⟨rfl, fun i hi => ?_⟩
  have hrange : (Set.range fun k : Fin r => lead k) = Set.range fun k : Fin r => lead' k := by
    ext c
    simpa [Fin.exists_iff] using heq c
  have hsame := ((strictMono_of_ascends hlead).range_inj (strictMono_of_ascends hlead')).mp hrange
  exact congrFun hsame ⟨i, hi⟩

/-- Reduced rows with the same space have the same leads and the same entries, whatever their
numbers of rows are. -/
theorem Reduced.unique (hs : Reduced w r lead rows) (h : Rectangular n w rows)
    (hs' : Reduced w r' lead' rows') (h' : Rectangular n' w rows')
    (hspace : rowSpace rows = rowSpace rows') :
    r = r' ∧ (∀ i < r, lead i = lead' i) ∧ ∀ i, entryAt rows i = entryAt rows' i := by
  -- the leads are the columns in which the space begins, and there are no others past the last one
  obtain ⟨rfl, hlead⟩ := eq_of_ascends hs.ascends hs'.ascends fun c => by
    rcases lt_or_ge c w with hc | hc
    · rw [hs.exists_lead_eq_iff hc, hs'.exists_lead_eq_iff hc, hspace]
    · refine iff_of_false ?_ ?_
      · rintro ⟨i, hi, rfl⟩
        exact (hs.lead_lt i hi).not_ge hc
      · rintro ⟨i, hi, rfl⟩
        exact (hs'.lead_lt i hi).not_ge hc
  refine ⟨rfl, hlead, fun i => funext fun c => ?_⟩
  rcases lt_or_ge c w with hc | hc
  · rcases lt_or_ge i r with hi | hi
    · -- row `i` of the second list has entry one at its own lead and zero at the others
      have hmem : entryAt rows' i ∈ rowSpace rows := hspace ▸ entryAt_mem_rowSpace rows' i
      rw [hs.entry_eq_sum hmem hc, Finset.sum_eq_single_of_mem i (mem_range.mpr hi), hlead i hi,
        hs'.lead_eq_one i hi, one_mul]
      intro k hk hki
      rw [hlead k (mem_range.mp hk), hs'.column (mem_range.mp hk) (Ne.symm hki), zero_mul]
    · rw [hs.rest_eq_zero i hi c hc, hs'.rest_eq_zero i hi c hc]
  · rw [h.entryAt_of_cols_le i hc, h'.entryAt_of_cols_le i hc]

/-! ## Combinations of rows -/

/-- The row is a linear combination of the rows of the list. -/
def IsCombination (rows : List (List ℚ)) (row : List ℚ) : Prop :=
  ∃ a : ℕ → ℚ, ∀ j, row.getD j 0 = ∑ i ∈ range rows.length, a i * entryAt rows i j

theorem isCombination_iff {row : List ℚ} :
    IsCombination rows row ↔ (fun j => row.getD j 0) ∈ rowSpace rows := by
  constructor
  · rintro ⟨a, ha⟩
    have hsum : (fun j => row.getD j 0) = ∑ i ∈ range rows.length, a i • entryAt rows i := by
      funext j
      rw [Finset.sum_apply]
      exact ha j
    rw [hsum]
    exact Submodule.sum_mem _ fun i _ => Submodule.smul_mem _ _ (entryAt_mem_rowSpace rows i)
  · intro hmem
    obtain ⟨a, ha⟩ := (Finsupp.mem_span_range_iff_exists_finsupp).mp hmem
    refine ⟨a, fun j => ?_⟩
    -- the two sums differ in rows past the end and in rows with the coefficient zero
    have hj := congrFun ha j
    rw [Finsupp.sum, Finset.sum_apply] at hj
    rw [← hj]
    refine Finset.sum_congr_of_eq_on_inter ?_ ?_ fun i _ _ => rfl
    · intro i _ hi
      rw [mem_range, not_lt] at hi
      rw [Pi.smul_apply, entryAt_of_length_le hi, smul_zero]
    · intro i _ hi
      rw [Finsupp.notMem_support_iff.mp hi, zero_mul]

/-- The row space lies in a space when the rows do. -/
theorem rowSpace_le_iff {p : Submodule ℚ (ℕ → ℚ)} :
    rowSpace rows ≤ p ↔ ∀ row ∈ rows, (fun j => row.getD j 0) ∈ p := by
  rw [rowSpace, Submodule.span_le, Set.range_subset_iff]
  constructor
  · intro hmem row hrow
    obtain ⟨i, hi, rfl⟩ := List.mem_iff_getElem.mp hrow
    rw [← List.getD_eq_getElem _ [] hi]
    exact hmem i
  · intro hall i
    by_cases hi : i < rows.length
    · have hrow := hall _ (List.getElem_mem hi)
      rwa [← List.getD_eq_getElem _ [] hi] at hrow
    · have hrow : entryAt rows i = 0 := funext (entryAt_of_length_le (not_lt.mp hi))
      rw [hrow]
      exact Submodule.zero_mem _

/-- Each of two lists consists of combinations of the other exactly when the spaces are the same. -/
theorem forall_isCombination_iff :
    ((∀ row ∈ rows, IsCombination rows' row) ∧ ∀ row ∈ rows', IsCombination rows row) ↔
      rowSpace rows = rowSpace rows' := by
  simp only [isCombination_iff, ← rowSpace_le_iff, le_antisymm_iff]

namespace RatMatrix

/-- **The reduced form is canonical.** Two plain matrices of one shape are reduced to the same
matrix exactly when every row of each is a linear combination of the rows of the other. -/
theorem reduce_eq_reduce_iff (a b : RatMatrix) (ha : a.WellFormed) (hb : b.WellFormed)
    (hplain : a.augmented = false) (hplain' : b.augmented = false) (hshape : a.shape = b.shape) :
    a.reduce.matrix = b.reduce.matrix ↔
      (∀ row ∈ a.rows, IsCombination b.rows row) ∧ ∀ row ∈ b.rows, IsCombination a.rows row := by
  rw [forall_isCombination_iff, ← rowSpace_reduce ha, ← rowSpace_reduce hb]
  refine ⟨fun heq => by rw [heq], fun hspace => ?_⟩
  obtain ⟨hwf, hsh, hflag⟩ := wellFormed_reduce ha
  obtain ⟨hwf', hsh', hflag'⟩ := wellFormed_reduce hb
  obtain ⟨r, lead, hs⟩ := reduced_reduce ha
  obtain ⟨r', lead', hs'⟩ := reduced_reduce hb
  have hrect := hwf.rectangular
  have hrect' := hwf'.rectangular
  rw [variableCount, if_neg (by simp [hplain]), ← hsh] at hs
  rw [variableCount, if_neg (by simp [hplain']), ← hshape, ← hsh] at hs'
  rw [hsh', ← hshape, ← hsh] at hrect'
  obtain ⟨-, -, hentry⟩ := hs.unique hrect hs' hrect' hspace
  ext1
  · rw [hsh, hsh', hshape]
  · exact hrect.ext hrect' fun i j => congrFun (hentry i) j
  · rw [hflag, hflag', hplain, hplain']

/-- Two matrices whose runs share no pivot, and whose rows are combinations of each other. -/
theorem reduce_eq_reduce_iff_of_two_rows :
    (∀ row ∈ [[1, 2, 3], [2, 4, 7]], IsCombination [[0, 0, 5], [1, 2, 0]] row) ∧
      ∀ row ∈ [[0, 0, 5], [1, 2, 0]], IsCombination [[1, 2, 3], [2, 4, 7]] row :=
  (reduce_eq_reduce_iff ⟨⟨2, 3⟩, [[1, 2, 3], [2, 4, 7]], false⟩
    ⟨⟨2, 3⟩, [[0, 0, 5], [1, 2, 0]], false⟩ (by decide) (by decide) rfl rfl rfl).mp
      (by decide +kernel)

end RatMatrix

end ExactLinear
