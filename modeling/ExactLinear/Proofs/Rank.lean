import ExactLinear.Proofs.EquivalentSystems
import ExactLinear.Proofs.GeneralSolution
import ExactLinear.Proofs.Representation

/-!
# Ranks

The rank of a matrix is the number of rows that are not zero in its reduced form. These are the rows
with a lead, and the leads are the columns in which elements of the row space begin; so the rank
counts these columns (`RatMatrix.nonzeroRowCount_reduce`).

A system can be reduced with its constants carried along, without them, and with them as an ordinary
column. Each time the row space begins in the same variable columns (`beginnings_eq_of_agree`). When
the constants are an ordinary column, the row space begins there as well exactly if the system
contains a contradiction (`Reduced.beginsAt_constants_iff`). So the ranks of the coefficients and of
the whole matrix tell how many solutions there are.
-/

namespace ExactLinear

open RatMatrix (entryAt lead? leadingRows contradiction? classify)
open Finset

variable {n w vars r : ℕ} {lead : ℕ → ℕ} {rows rows' : List (List ℚ)}
  {p : Submodule ℚ (ℕ → ℚ)}

/-! ## The columns in which a row space begins -/

open Classical in
/-- The columns among the first `w` in which elements of the space begin. -/
noncomputable def beginnings (w : ℕ) (p : Submodule ℚ (ℕ → ℚ)) : Finset ℕ :=
  (range w).filter (BeginsAt p)

theorem card_beginnings_succ (h : BeginsAt p w) :
    (beginnings (w + 1) p).card = (beginnings w p).card + 1 := by
  unfold beginnings
  rw [range_add_one, filter_insert, if_pos h, card_insert_of_notMem (by simp)]

theorem beginnings_succ_of_not (h : ¬BeginsAt p w) : beginnings (w + 1) p = beginnings w p := by
  unfold beginnings
  rw [range_add_one, filter_insert, if_neg h]

/-- When two lists of rows agree on some columns, each element of one row space agrees there with an
element of the other. -/
theorem exists_mem_rowSpace_of_agree (h : ∀ i, ∀ j < w, entryAt rows i j = entryAt rows' i j)
    {v : ℕ → ℚ} (hv : v ∈ rowSpace rows) : ∃ u ∈ rowSpace rows', ∀ j < w, v j = u j := by
  induction hv using Submodule.span_induction with
  | mem v hv =>
    obtain ⟨i, rfl⟩ := hv
    exact ⟨_, entryAt_mem_rowSpace rows' i, h i⟩
  | zero => exact ⟨0, Submodule.zero_mem _, fun _ _ => rfl⟩
  | add v v' _ _ hv hv' =>
    obtain ⟨u, hu, hvu⟩ := hv
    obtain ⟨u', hu', hvu'⟩ := hv'
    exact ⟨u + u', Submodule.add_mem _ hu hu', fun j hj => congrArg₂ (· + ·) (hvu j hj) (hvu' j hj)⟩
  | smul a v _ hv =>
    obtain ⟨u, hu, hvu⟩ := hv
    exact ⟨a • u, Submodule.smul_mem _ a hu, fun j hj => congrArg (a * ·) (hvu j hj)⟩

theorem beginsAt_of_agree (h : ∀ i, ∀ j < w, entryAt rows i j = entryAt rows' i j) {c : ℕ}
    (hc : c < w) (hbegins : BeginsAt (rowSpace rows) c) : BeginsAt (rowSpace rows') c := by
  obtain ⟨v, hv, hne, hbefore⟩ := hbegins
  obtain ⟨u, hu, hvu⟩ := exists_mem_rowSpace_of_agree h hv
  refine ⟨u, hu, by rwa [← hvu c hc], fun j hj => ?_⟩
  rw [← hvu j (hj.trans hc)]
  exact hbefore j hj

/-- Row spaces of rows that agree on some columns begin in the same ones of these columns. -/
theorem beginnings_eq_of_agree (h : ∀ i, ∀ j < w, entryAt rows i j = entryAt rows' i j) :
    beginnings w (rowSpace rows) = beginnings w (rowSpace rows') := by
  classical
  refine filter_congr fun c hc => ⟨?_, ?_⟩
  · exact beginsAt_of_agree h (mem_range.mp hc)
  · exact beginsAt_of_agree (fun i j hj => (h i j hj).symm) (mem_range.mp hc)

namespace Reduced

/-- The row space begins in as many variable columns as there are leads. -/
theorem card_beginnings (hs : Reduced vars r lead rows) :
    (beginnings vars (rowSpace rows)).card = r := by
  rw [← card_image_of_ascends hs.ascends]
  congr 1
  ext c
  simp only [beginnings, mem_filter, mem_image, mem_range]
  constructor
  · exact fun ⟨hc, hbegins⟩ => (hs.exists_lead_eq_iff hc).mpr hbegins
  · rintro ⟨i, hi, rfl⟩
    exact ⟨hs.lead_lt i hi, (hs.exists_lead_eq_iff (hs.lead_lt i hi)).mp ⟨i, hi, rfl⟩⟩

/-- When all columns are variable columns, the rows that are not zero are those with a lead. -/
theorem countP_ne_zero (hs : Reduced w r lead rows) (h : Rectangular n w rows) :
    rows.countP (fun row => row.any (· ≠ 0)) = r := by
  have hlength : (leadingRows w rows).length = r := by
    rw [hs.leadingRows_eq, List.length_map, List.length_range]
  rw [← hlength, leadingRows, List.length_filterMap_eq_countP]
  refine List.countP_congr fun row hrow => ?_
  rw [Option.isSome_map, Option.isSome_iff_ne_none, Ne, lead?_eq_none_iff, List.any_eq_true]
  push Not
  constructor
  · rintro ⟨x, hx, hne⟩
    obtain ⟨j, hj, rfl⟩ := List.mem_iff_getElem.mp hx
    refine ⟨j, h.row_length row hrow ▸ hj, ?_⟩
    rw [List.getD_eq_getElem _ _ hj]
    exact of_decide_eq_true hne
  · rintro ⟨j, hj, hne⟩
    have hj' : j < row.length := (h.row_length row hrow).symm ▸ hj
    rw [List.getD_eq_getElem _ _ hj'] at hne
    exact ⟨_, List.getElem_mem hj', decide_eq_true hne⟩

/-- The row space begins in the column of the constants when a row reads `0 = c`. -/
theorem beginsAt_constants_iff (hs : Reduced vars r lead rows) :
    BeginsAt (rowSpace rows) vars ↔ contradiction? vars rows ≠ none := by
  rw [Ne, hs.contradiction?_eq_none_iff]
  constructor
  · rintro ⟨v, hv, hne, hbefore⟩ hrest
    -- an element without variables is no combination of rows that have leads
    refine hne ?_
    rw [(hs.withConstants hrest).entry_eq_sum hv (Nat.lt_succ_self vars)]
    refine Finset.sum_eq_zero fun i hi => ?_
    rw [hbefore _ (hs.lead_lt i (mem_range.mp hi)), zero_mul]
  · intro hrest
    push Not at hrest
    obtain ⟨i, hi, hne⟩ := hrest
    exact ⟨_, entryAt_mem_rowSpace rows i, hne, hs.rest_eq_zero i hi⟩

/-- The variables that lead no row and the leads are together all variables. -/
theorem length_free_add (hs : Reduced vars r lead rows) :
    ((List.range vars).filter fun j => (leadingRows vars rows).all (·.1 ≠ j)).length + r =
      vars := by
  have hpartition := (hs.generalSolution rfl).partition.length_eq
  rwa [List.length_append, List.length_map, List.length_map, hs.leadingRows_eq, List.length_map,
    List.length_range, List.length_range, ← hs.leadingRows_eq] at hpartition

/-- What is read off reduced rows depends on whether the row space begins in the column of the
constants, and on whether all variables lead a row. -/
theorem classify_cases (hs : Reduced vars r lead rows) :
    (BeginsAt (rowSpace rows) vars ∧
        ∃ row constant, classify vars rows = .inconsistent row constant) ∨
      (¬BeginsAt (rowSpace rows) vars ∧ r = vars ∧
        ∃ values, classify vars rows = .unique values) ∨
      (¬BeginsAt (rowSpace rows) vars ∧ r ≠ vars ∧
        ∃ free expressions, classify vars rows = .infinite free expressions ∧
          free.length + r = vars) := by
  rw [hs.beginsAt_constants_iff, not_ne_iff]
  unfold classify
  cases hcontra : contradiction? vars rows with
  | some c => exact .inl ⟨Option.some_ne_none c, _, _, rfl⟩
  | none =>
    have hlength := hs.length_free_add
    refine .inr ?_
    dsimp only
    split_ifs with hempty
    · rw [List.isEmpty_iff] at hempty
      rw [hempty, List.length_nil, zero_add] at hlength
      exact .inl ⟨rfl, hlength, _, rfl⟩
    · have hpos := List.length_pos_of_ne_nil (mt List.isEmpty_iff.mpr hempty)
      exact .inr ⟨rfl, by omega, _, _, rfl, hlength⟩

end Reduced

/-! ## Ranks and solutions -/

namespace RatMatrix

variable {m a : RatMatrix}

/-- The number of rows that are not zero. -/
def nonzeroRowCount (m : RatMatrix) : ℕ := m.rows.countP fun row => row.any (· ≠ 0)

/-- In the reduced form of a plain matrix the rows that are not zero are as many as the columns in
which its row space begins. -/
theorem nonzeroRowCount_reduce (hm : m.WellFormed) (hplain : m.augmented = false) :
    m.reduce.matrix.nonzeroRowCount = (beginnings m.shape.cols (rowSpace m.rows)).card := by
  obtain ⟨r, lead, hs⟩ := reduced_reduce hm
  obtain ⟨hwf, hshape, -⟩ := wellFormed_reduce hm
  rw [variableCount_eq_cols hplain] at hs
  have hrect := hwf.rectangular
  rw [hshape] at hrect
  rw [nonzeroRowCount, hs.countP_ne_zero hrect, ← rowSpace_reduce hm, hs.card_beginnings]

/-- The coefficients of a system have its entries in the variable columns. -/
theorem entryAt_coefficients (hm : m.WellFormed) (haug : m.augmented = true)
    (hvars : 0 < m.variableCount) :
    ∃ a, m.coefficients = .ok a ∧ a.WellFormed ∧ a.augmented = false ∧
      a.shape.cols = m.variableCount ∧
      ∀ i, ∀ j < m.variableCount, entryAt a.rows i j = entryAt m.rows i j := by
  have hcols : m.shape = ⟨m.shape.rows, m.variableCount + 1⟩ := by rw [← hm.cols_eq haug]
  have hrepr := hm.represents_of_shape_eq hcols
  obtain ⟨a, ha, hcoeff, hplain⟩ := hrepr.coefficients haug hm.1 hvars
  refine ⟨a, ha, hcoeff.wellFormed hm.1 hvars, hplain, by rw [hcoeff.shape_eq], fun i j hj => ?_⟩
  rcases lt_or_ge i m.shape.rows with hi | hi
  · exact hcoeff.entryAt_eq ⟨i, hi⟩ ⟨j, hj⟩
  · rw [hcoeff.rectangular.entryAt_of_rows_le hi,
      hrepr.rectangular.entryAt_of_rows_le hi]

/-- **The ranks tell how many solutions there are.** A system in at least one variable is reduced
three times: as it is, without its constants, and with them as an ordinary column. It is answered as
inconsistent exactly when the third reduction has more rows that are not zero than the second one,
as uniquely solvable exactly when both have as many as there are variables, and else with as many
free variables as the second one has fewer rows than there are variables. -/
theorem solve_of_nonzeroRowCount (m : RatMatrix) (hm : m.WellFormed) (haug : m.augmented = true)
    (hvars : 0 < m.variableCount) :
    ∃ a s rankA rankM, m.coefficients = .ok a ∧ m.solve = .ok s ∧
      rankA = a.reduce.matrix.nonzeroRowCount ∧
      rankM = (m.withAugmented false).reduce.matrix.nonzeroRowCount ∧
      ((∃ row constant, s = .inconsistent row constant) ↔ rankA < rankM) ∧
      ((∃ values, s = .unique values) ↔ rankM = rankA ∧ rankA = m.variableCount) ∧
      (¬rankA < rankM → ¬(rankM = rankA ∧ rankA = m.variableCount) →
        ∃ free expressions, s = .infinite free expressions ∧
          free.length + rankA = m.variableCount) := by
  obtain ⟨r, lead, hs⟩ := reduced_reduce hm
  obtain ⟨a, ha, hwf, hplain, hcols, hagree⟩ := entryAt_coefficients hm haug hvars
  have hspace := rowSpace_reduce hm
  -- without the constants the row space begins where the reduced system has its leads
  have hrankA : a.reduce.matrix.nonzeroRowCount = r := by
    rw [nonzeroRowCount_reduce hwf hplain, hcols, beginnings_eq_of_agree hagree, ← hspace,
      hs.card_beginnings]
  -- with them as an ordinary column it may begin there as well
  have hrankM : (m.withAugmented false).reduce.matrix.nonzeroRowCount =
      (beginnings (m.variableCount + 1) (rowSpace m.reduce.matrix.rows)).card := by
    rw [hspace, ← hm.cols_eq haug]
    exact nonzeroRowCount_reduce (m := m.withAugmented false) hm rfl
  refine ⟨a, classify m.variableCount m.reduce.matrix.rows, _, _, ha, by rw [solve, if_pos haug],
    hrankA.symm, hrankM.symm, ?_⟩
  have hcard := hs.card_beginnings
  rcases hs.classify_cases with ⟨hbegins, row, constant, hanswer⟩ | ⟨hbegins, hr, values, hanswer⟩ |
    ⟨hbegins, hr, free, expressions, hanswer, hlength⟩
  · rw [card_beginnings_succ hbegins, hcard, hanswer]
    simp
  · rw [beginnings_succ_of_not hbegins, hcard, hanswer, hr]
    simp
  · rw [beginnings_succ_of_not hbegins, hcard, hanswer]
    simp [hr, hlength]

/-- In `x + y = 1`, `2x + 2y = 3` the column of the constants is a pivot of the third reduction
only. -/
theorem solve_of_nonzeroRowCount_of_contradiction :
    let m : RatMatrix := ⟨⟨2, 3⟩, [[1, 1, 1], [2, 2, 3]], true⟩
    m.coefficients = .ok ⟨⟨2, 2⟩, [[1, 1], [2, 2]], false⟩ ∧
      (⟨⟨2, 2⟩, [[1, 1], [2, 2]], false⟩ : RatMatrix).reduce.matrix.nonzeroRowCount = 1 ∧
      (m.withAugmented false).reduce.matrix.nonzeroRowCount = 2 ∧
      ∃ row constant, m.solve = .ok (.inconsistent row constant) := by
  intro m
  have hcoeff : m.coefficients = .ok ⟨⟨2, 2⟩, [[1, 1], [2, 2]], false⟩ := by decide +kernel
  have hrankA : (⟨⟨2, 2⟩, [[1, 1], [2, 2]], false⟩ : RatMatrix).reduce.matrix.nonzeroRowCount =
      1 := by decide +kernel
  have hrankM : (m.withAugmented false).reduce.matrix.nonzeroRowCount = 2 := by decide +kernel
  obtain ⟨a, s, rankA, rankM, ha, hs, hA, hM, hinconsistent, -⟩ :=
    solve_of_nonzeroRowCount m (by decide +kernel) rfl (by decide)
  obtain rfl := Except.ok.inj (hcoeff.symm.trans ha)
  have hlt : rankA < rankM := by
    rw [hA.trans hrankA, hM.trans hrankM]
    decide
  obtain ⟨row, constant, rfl⟩ := hinconsistent.mpr hlt
  exact ⟨hcoeff, hrankA, hrankM, row, constant, hs⟩

end RatMatrix

end ExactLinear
