import Mathlib.Logic.Relation
import ExactLinear.Proofs.SolutionSet

/-!
# Systems with the same solutions

Of a system that has solutions, the row space can be recovered from them: it consists of the
equations that all solutions solve (`Reduced.mem_rowSpace_iff`). Reduced rows are in turn determined
by their space, up to zero rows at the end, which `classify` passes over. So the answer of `solve`
depends on the set of solutions alone, whatever equations describe it and however many there are.

`Manipulation` lists what may be done to the equations of a system without a change of its
solutions.
-/

namespace ExactLinear

open RatMatrix (entryAt contradiction? leadingRows classify)
open Finset

variable {n n' vars r r' : ℕ} {lead lead' : ℕ → ℕ} {rows rows' : List (List ℚ)}

/-! ## The row space from the solutions -/

namespace Reduced

/-- The constants count as one more column of a reduced system without a contradiction. -/
theorem withConstants (hs : Reduced vars r lead rows)
    (hrest : ∀ i, r ≤ i → entryAt rows i vars = 0) : Reduced (vars + 1) r lead rows where
  ascends := hs.ascends
  lead_lt i hi := Nat.lt_succ_of_lt (hs.lead_lt i hi)
  lead_eq_one := hs.lead_eq_one
  before_lead := hs.before_lead
  rest_eq_zero i hi c hc := by
    rcases Nat.lt_succ_iff_lt_or_eq.mp hc with hc | rfl
    · exact hs.rest_eq_zero i hi c hc
    · exact hrest i hi
  above_lead := hs.above_lead

/-- An equation in which no leading variable occurs and that all solutions solve is trivial. -/
theorem eq_zero_of_solvedBy (hs : Reduced vars r lead rows)
    (hrest : ∀ i, r ≤ i → entryAt rows i vars = 0) {u : ℕ → ℚ}
    (hlead : ∀ i < r, u (lead i) = 0) (hpast : ∀ j, vars < j → u j = 0)
    (hsolved : ∀ x, rowSpace rows ≤ solvedBy vars x → u ∈ solvedBy vars x) : u = 0 := by
  -- whatever values the free variables have, there is a solution with these values
  have hchoice : ∀ choice : ℕ → ℚ,
      ∑ k ∈ freeColumns vars r lead, u k * choice k = u vars := by
    intro choice
    obtain ⟨x, hx, hrows⟩ := hs.exists_extension choice
    have hu := hsolved x ((hs.rowSpace_le_solvedBy_iff hrest).mpr hrows)
    rw [mem_solvedBy_iff] at hu
    rw [← hu, ← Finset.sum_subset (filter_subset _ _ : freeColumns vars r lead ⊆ range vars)]
    · exact Finset.sum_congr rfl fun k hk => by rw [hx k hk]
    · intro j hj hfree
      obtain ⟨i, hi, rfl⟩ := exists_lead_of_notMem (mem_range.mp hj) hfree
      rw [hlead i hi, zero_mul]
  have hconstant : u vars = 0 := by
    rw [← hchoice 0]
    exact Finset.sum_eq_zero fun k _ => mul_zero _
  funext j
  rcases lt_trichotomy j vars with hj | rfl | hj
  · by_cases hfree : j ∈ freeColumns vars r lead
    · have hone := hchoice (Pi.single j 1)
      rwa [Finset.sum_eq_single_of_mem j hfree fun k _ hk => by
        rw [Pi.single_eq_of_ne hk, mul_zero], Pi.single_eq_same, mul_one, hconstant] at hone
    · obtain ⟨i, hi, rfl⟩ := exists_lead_of_notMem hj hfree
      exact hlead i hi
  · exact hconstant
  · exact hpast j hj

/-- The row space of a reduced system that has solutions consists of the equations that all of them
solve. -/
theorem mem_rowSpace_iff (hs : Reduced vars r lead rows) (h : Rectangular n (vars + 1) rows)
    (hrest : ∀ i, r ≤ i → entryAt rows i vars = 0) {v : ℕ → ℚ} :
    v ∈ rowSpace rows ↔ (∀ j, vars < j → v j = 0) ∧
      ∀ x, rowSpace rows ≤ solvedBy vars x → v ∈ solvedBy vars x := by
  constructor
  · intro hv
    exact ⟨fun j hj => h.eq_zero_of_mem_rowSpace hv hj, fun x hx => hx hv⟩
  · rintro ⟨hpast, hsolved⟩
    -- subtract the combination of the rows that has the same entries at the leads
    set combination := ∑ i ∈ range r, v (lead i) • entryAt rows i with hcombination
    have hmem : combination ∈ rowSpace rows :=
      Submodule.sum_mem _ fun i _ => Submodule.smul_mem _ _ (entryAt_mem_rowSpace rows i)
    have hzero : v - combination = 0 := by
      refine hs.eq_zero_of_solvedBy hrest (fun i hi => ?_) (fun j hj => ?_) fun x hx =>
        Submodule.sub_mem _ (hsolved x hx) (hx hmem)
      · rw [Pi.sub_apply, hcombination, Finset.sum_apply,
          Finset.sum_eq_single_of_mem i (mem_range.mpr hi), Pi.smul_apply, hs.lead_eq_one i hi,
          smul_eq_mul, mul_one, sub_self]
        intro k _ hk
        rw [Pi.smul_apply, hs.column hi hk, smul_zero]
      · rw [Pi.sub_apply, hpast j hj, h.eq_zero_of_mem_rowSpace hmem hj, sub_zero]
    rwa [sub_eq_zero.mp hzero]

/-! ## The answer from the row space -/

/-- Reduced systems without a contradiction that have the same leading rows are answered alike. -/
theorem classify_eq (hs : Reduced vars r lead rows) (hs' : Reduced vars r lead' rows')
    (hrest : ∀ i, r ≤ i → entryAt rows i vars = 0) (hrest' : ∀ i, r ≤ i → entryAt rows' i vars = 0)
    (hlead : ∀ i < r, lead i = lead' i) (hrow : ∀ i < r, rows.getD i [] = rows'.getD i []) :
    classify vars rows = classify vars rows' := by
  have hleading : leadingRows vars rows = leadingRows vars rows' := by
    rw [hs.leadingRows_eq, hs'.leadingRows_eq]
    refine List.map_congr_left fun i hi => ?_
    rw [hlead i (List.mem_range.mp hi), hrow i (List.mem_range.mp hi)]
  unfold classify
  rw [hs.contradiction?_eq_none_iff.mpr hrest, hs'.contradiction?_eq_none_iff.mpr hrest', hleading]

/-- Reduced systems with the same solutions, of which there is one at least, are answered alike. -/
theorem classify_eq_of_solvedBy (hs : Reduced vars r lead rows)
    (h : Rectangular n (vars + 1) rows) (hs' : Reduced vars r' lead' rows')
    (h' : Rectangular n' (vars + 1) rows')
    (hsame : ∀ x, rowSpace rows ≤ solvedBy vars x ↔ rowSpace rows' ≤ solvedBy vars x)
    {x : ℕ → ℚ} (hx : rowSpace rows ≤ solvedBy vars x) :
    classify vars rows = classify vars rows' := by
  have hrest : ∀ i, r ≤ i → entryAt rows i vars = 0 := fun i hi =>
    (hs.solvedBy_rest_iff hi x).mp (hx (entryAt_mem_rowSpace rows i))
  have hrest' : ∀ i, r' ≤ i → entryAt rows' i vars = 0 := fun i hi =>
    (hs'.solvedBy_rest_iff hi x).mp ((hsame x).mp hx (entryAt_mem_rowSpace rows' i))
  have hspace : rowSpace rows = rowSpace rows' := by
    ext v
    simp only [hs.mem_rowSpace_iff h hrest, hs'.mem_rowSpace_iff h' hrest', hsame]
  obtain ⟨rfl, hlead, hentry⟩ :=
    (hs.withConstants hrest).unique h (hs'.withConstants hrest') h' hspace
  refine hs.classify_eq hs' hrest hrest' hlead fun i hi => ?_
  have hi' : i < n := hi.trans_le (h.length_eq ▸ hs.le_length)
  have hi'' : i < n' := hi.trans_le (h'.length_eq ▸ hs'.le_length)
  exact eq_of_getD_eq (h.length_getD hi') (h'.length_getD hi'') fun j _ => congrFun (hentry i) j

end Reduced

namespace RatMatrix

variable {a b : RatMatrix}

/-- A solution as a function on the variables. -/
theorem solves_map_range_iff {x : ℕ → ℚ} :
    a.Solves ((List.range a.variableCount).map x) ↔
      rowSpace a.rows ≤ solvedBy a.variableCount x := by
  rw [solves_iff, solvedBy_congr (y := x), and_iff_right (by simp)]
  exact fun j hj => getD_map_range x 0 hj

/-- The rows of a reduced augmented matrix are as wide as its variables and the constant. -/
theorem rectangular_reduce (ha : a.WellFormed) (haug : a.augmented = true) :
    Rectangular a.shape.rows (a.variableCount + 1) a.reduce.matrix.rows := by
  obtain ⟨hwf, hshape, -⟩ := wellFormed_reduce ha
  have hrect := hwf.rectangular
  rwa [hshape, ha.cols_eq haug] at hrect

/-- Systems with the same solutions, of which there is one at least, are answered alike. -/
theorem solve_eq_of_solves_iff (ha : a.WellFormed) (hb : b.WellFormed)
    (haug : a.augmented = true) (haug' : b.augmented = true)
    (hvars : a.variableCount = b.variableCount) {x : List ℚ} (hx : a.Solves x)
    (hsame : ∀ x, a.Solves x ↔ b.Solves x) : b.solve = a.solve := by
  obtain ⟨r, lead, hs⟩ := reduced_reduce ha
  obtain ⟨r', lead', hs'⟩ := reduced_reduce hb
  have h' := rectangular_reduce hb haug'
  have hsolved : ∀ y : ℕ → ℚ, rowSpace a.reduce.matrix.rows ≤ solvedBy a.variableCount y ↔
      rowSpace b.reduce.matrix.rows ≤ solvedBy a.variableCount y := by
    intro y
    rw [rowSpace_reduce ha, rowSpace_reduce hb, ← solves_map_range_iff, hsame, hvars,
      solves_map_range_iff]
  rw [← hvars] at hs' h'
  have hx' := (solves_iff.mp ((solves_reduce ha).mpr hx)).2
  rw [variableCount_reduce ha] at hx'
  rw [solve, solve, if_pos haug, if_pos haug', ← hvars,
    hs.classify_eq_of_solvedBy (rectangular_reduce ha haug) hs' h' hsolved hx']

end RatMatrix

/-- Systems that one answer describes have the same solutions. -/
theorem Solution.Describes.solves_iff {a b : RatMatrix} {s : Solution} (ha : s.Describes a)
    (hb : s.Describes b) (hvars : a.variableCount = b.variableCount) (x : List ℚ) :
    a.Solves x ↔ b.Solves x := by
  cases s with
  | unique values => exact (ha x).trans (hb x).symm
  | infinite free expressions =>
    by_cases hx : x.length = a.variableCount
    · exact (ha.2.1 x hx).trans (hb.2.1 x (hx.trans hvars)).symm
    · exact iff_of_false (fun h => hx h.1) fun h => hx (h.1.trans hvars.symm)
  | inconsistent row constant => exact iff_of_false (ha x) (hb x)

/-! ## Manipulations of the equations -/

/-- One manipulation of the equations of a system. A linear combination of several equations is
formed by scaling one of them and by combining it with the others one after the other. -/
inductive Manipulation : List (List ℚ) → List (List ℚ) → Prop where
  /-- Writes the equations in another order. -/
  | permute {rows rows' : List (List ℚ)} (h : rows.Perm rows') : Manipulation rows rows'
  /-- Multiplies an equation by a number other than zero. -/
  | scale {k : ℚ} (hk : k ≠ 0) (row : List ℚ) (rows : List (List ℚ)) :
    Manipulation (row :: rows) (row.map (k * ·) :: rows)
  /-- Writes an equation twice. -/
  | duplicate (row : List ℚ) (rows : List (List ℚ)) :
    Manipulation (row :: rows) (row :: row :: rows)
  /-- Subtracts a multiple of an equation from another one. -/
  | combine (k : ℚ) {row other : List ℚ} (h : other.length = row.length) (rows : List (List ℚ)) :
    Manipulation (row :: other :: rows) (RowOp.subtractMultiple k row other :: other :: rows)

/-- A manipulation keeps the row space. -/
theorem Manipulation.rowSpace_eq (h : Manipulation rows rows') :
    rowSpace rows = rowSpace rows' := by
  refine eq_of_forall_ge_iff fun p => ?_
  rw [rowSpace_le_iff, rowSpace_le_iff]
  cases h with
  | permute h => exact forall_congr' fun row => by rw [h.mem_iff]
  | @scale k hk row rows =>
    have hscaled : (fun j => (row.map (k * ·)).getD j 0) = k • fun j => row.getD j 0 :=
      funext fun j => getD_map_mul k row j
    rw [List.forall_mem_cons, List.forall_mem_cons, hscaled, p.smul_mem_iff hk]
  | duplicate row rows => simp
  | @combine k row other hlen rows =>
    have hcombined : (fun j => (RowOp.subtractMultiple k row other).getD j 0) =
        (fun j => row.getD j 0) - k • fun j => other.getD j 0 :=
      funext fun j => RowOp.getD_subtractMultiple k hlen.le j
    simp only [List.forall_mem_cons, hcombined]
    -- the other equation lies in the space on both sides, and so does each multiple of it
    exact and_congr_left fun hother =>
      (p.sub_mem_iff_left (p.smul_mem k hother.1)).symm

/-- Any number of manipulations, made or undone, keeps the row space. -/
theorem rowSpace_eq_of_eqvGen (h : Relation.EqvGen Manipulation rows rows') :
    rowSpace rows = rowSpace rows' := by
  induction h with
  | rel rows rows' h => exact h.rowSpace_eq
  | refl rows => rfl
  | symm rows rows' _ ih => exact ih.symm
  | trans rows rows' rows'' _ _ ih ih' => exact ih.trans ih'

namespace RatMatrix

/-- **The answer depends on the solutions only.** Two systems in the same variables, one of which
has a solution, get the same answer exactly when they have the same solutions, whatever their
numbers of equations are. In particular the answer stays the same when equations are written in
another order, multiplied by numbers other than zero, written several times or once only, or
combined with each other. -/
theorem solve_eq_solve_iff (a b : RatMatrix) (ha : a.WellFormed) (hb : b.WellFormed)
    (haug : a.augmented = true) (haug' : b.augmented = true)
    (hvars : a.variableCount = b.variableCount) (hcons : ∃ x, a.Solves x) :
    (∃ s, a.solve = .ok s ∧ s.isConsistent = true) ∧
      (b.solve = a.solve ↔ ∀ x, a.Solves x ↔ b.Solves x) ∧
      (Relation.EqvGen Manipulation a.rows b.rows → b.solve = a.solve) := by
  obtain ⟨s, hsolve, hs⟩ := describes_solve ha haug
  obtain ⟨x, hx⟩ := hcons
  refine ⟨⟨s, hsolve, hs.isConsistent_iff.mpr ⟨x, hx⟩⟩, ⟨fun heq => ?_, ?_⟩, fun hsteps => ?_⟩
  · obtain ⟨s', hsolve', hs'⟩ := describes_solve hb haug'
    obtain rfl := Except.ok.inj ((hsolve'.symm.trans heq).trans hsolve)
    exact hs.solves_iff hs' hvars
  · exact solve_eq_of_solves_iff ha hb haug haug' hvars hx
  · refine solve_eq_of_solves_iff ha hb haug haug' hvars hx fun y => ?_
    rw [solves_iff, solves_iff, hvars, rowSpace_eq_of_eqvGen hsteps]

/-- Two equations against three, which are the same ones halved, written twice, reordered and added.
-/
theorem solve_eq_solve_of_three_equations :
    (⟨⟨3, 4⟩, [[1, 2, 3, 4], [0, 1, 2, 3], [0, 1, 2, 3]], true⟩ : RatMatrix).solve =
      (⟨⟨2, 4⟩, [[0, 2, 4, 6], [1, 1, 1, 1]], true⟩ : RatMatrix).solve := by
  refine (solve_eq_solve_iff ⟨⟨2, 4⟩, [[0, 2, 4, 6], [1, 1, 1, 1]], true⟩
    ⟨⟨3, 4⟩, [[1, 2, 3, 4], [0, 1, 2, 3], [0, 1, 2, 3]], true⟩ (by decide) (by decide) rfl rfl rfl
    ⟨[-2, 3, 0], by decide +kernel⟩).2.2 ?_
  have hhalf : ([0, 2, 4, 6].map ((1 / 2 : ℚ) * ·)) = [0, 1, 2, 3] := by decide +kernel
  have hsum : RowOp.subtractMultiple (-1) [1, 1, 1, 1] [0, 1, 2, 3] = [1, 2, 3, 4] := by
    decide +kernel
  have horder : [[0, 1, 2, 3], [0, 1, 2, 3], [1, 1, 1, 1]].Perm
      ([[1, 1, 1, 1], [0, 1, 2, 3], [0, 1, 2, 3]] : List (List ℚ)) := by decide
  have hstart := Manipulation.scale (k := 1 / 2) (by norm_num) [0, 2, 4, 6] [[1, 1, 1, 1]]
  have hend := @Manipulation.combine (-1) [1, 1, 1, 1] [0, 1, 2, 3] rfl [[0, 1, 2, 3]]
  rw [hhalf] at hstart
  rw [hsum] at hend
  exact .trans _ _ _ (.rel _ _ hstart) (.trans _ _ _ (.rel _ _ (.duplicate _ _))
    (.trans _ _ _ (.rel _ _ (.permute horder)) (.rel _ _ hend)))

end RatMatrix

end ExactLinear
