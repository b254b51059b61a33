import Mathlib.Logic.Function.Basic
import ExactLinear.System
import ExactLinear.Proofs.RowSpace

/-!
# The solution set of a system

An assignment solves an equation when the two sides agree, and the equations that it solves form a
space (`solvedBy`). So the solutions of a system depend on the row space of its matrix only, and a
reduction keeps them.

In a reduced system row `i` determines its leading variable by those that lead no row
(`Reduced.solvedBy_row_iff`), and the values of the latter can be chosen freely
(`Reduced.exists_extension`). `classify` reads this off the rows: `Solution.Describes` states what
its answers say about the solutions, and `describes_classify` that they are right.
-/

namespace ExactLinear

open RatMatrix (entryAt lead? contradiction? leadingRows classify)
open Finset

variable {n vars r : ℕ} {lead : ℕ → ℕ} {rows : List (List ℚ)}

/-! ## Solutions -/

/-- The value of the expression under the assignment `x`. -/
def AffineExpr.value (e : AffineExpr) (x : List ℚ) : ℚ :=
  e.constant + (e.terms.map fun t => t.2 * x.getD t.1 0).sum

namespace RatMatrix

/-- The assignment gives each variable a value, and in every row of the system the multiples of
these values add up to the constant. -/
def Solves (m : RatMatrix) (x : List ℚ) : Prop :=
  x.length = m.variableCount ∧
    ∀ row ∈ m.rows, dotProduct (row.take m.variableCount) x = row.getD m.variableCount 0

instance (m : RatMatrix) (x : List ℚ) : Decidable (m.Solves x) :=
  inferInstanceAs (Decidable (_ ∧ ∀ row ∈ m.rows, _))

end RatMatrix

/-- What an answer says about the solutions of a system. -/
def Solution.Describes (m : RatMatrix) : Solution → Prop
  | .unique values => ∀ x, m.Solves x ↔ x = values
  | .infinite free expressions =>
    free ≠ [] ∧
      (∀ x, x.length = m.variableCount →
        (m.Solves x ↔ ∀ e ∈ expressions, x.getD e.1 0 = e.2.value x)) ∧
      ∀ choice : ℕ → ℚ, ∃! x, m.Solves x ∧ ∀ v ∈ free, x.getD v 0 = choice v
  | .inconsistent _ _ => ∀ x, ¬m.Solves x

/-- The equations in `vars` variables that an assignment solves: the entry after the variables is
the constant. -/
def solvedBy (vars : ℕ) (x : ℕ → ℚ) : Submodule ℚ (ℕ → ℚ) where
  carrier := {v | ∑ j ∈ range vars, v j * x j = v vars}
  zero_mem' := by simp
  add_mem' := by
    intro u v hu hv
    simp only [Set.mem_ofPred_eq, Pi.add_apply, add_mul, Finset.sum_add_distrib] at *
    rw [hu, hv]
  smul_mem' := by
    intro a v hv
    simp only [Set.mem_ofPred_eq, Pi.smul_apply, smul_eq_mul, mul_assoc, ← Finset.mul_sum] at *
    rw [hv]

theorem mem_solvedBy_iff {v x : ℕ → ℚ} :
    v ∈ solvedBy vars x ↔ ∑ j ∈ range vars, v j * x j = v vars := Iff.rfl

/-- Whether an equation is solved depends on the values of its variables only. -/
theorem solvedBy_congr {x y : ℕ → ℚ} (hxy : ∀ j < vars, x j = y j) :
    solvedBy vars x = solvedBy vars y := by
  ext v
  rw [mem_solvedBy_iff, mem_solvedBy_iff,
    Finset.sum_congr rfl fun j hj => by rw [hxy j (mem_range.mp hj)]]

theorem rowSpace_le_solvedBy_iff {x : ℕ → ℚ} :
    rowSpace rows ≤ solvedBy vars x ↔ ∀ i, entryAt rows i ∈ solvedBy vars x := by
  unfold rowSpace
  rw [Submodule.span_le, Set.range_subset_iff]
  rfl

namespace RatMatrix

variable {m : RatMatrix} {x : List ℚ}

/-- A solution is an assignment that solves all equations of the row space. -/
theorem solves_iff :
    m.Solves x ↔ x.length = m.variableCount ∧
      rowSpace m.rows ≤ solvedBy m.variableCount fun j => x.getD j 0 := by
  refine and_congr_right fun hlen => ?_
  have hsum : ∀ row : List ℚ, dotProduct (row.take m.variableCount) x =
      ∑ j ∈ range m.variableCount, row.getD j 0 * x.getD j 0 := by
    intro row
    -- the constant is cut off, and the assignment does not reach it either
    rw [dotProduct_eq_sum, hlen]
    refine Finset.sum_congr rfl fun j hj => ?_
    simp [List.getD_eq_getElem?_getD, mem_range.mp hj]
  rw [rowSpace_le_iff]
  refine forall₂_congr fun row _ => ?_
  rw [hsum, mem_solvedBy_iff]

/-- A reduction keeps the solutions. -/
theorem solves_reduce (hm : m.WellFormed) : m.reduce.matrix.Solves x ↔ m.Solves x := by
  rw [solves_iff, solves_iff, variableCount_reduce hm, rowSpace_reduce hm]

/-- The residual is zero in every row exactly when the assignment is a solution. -/
theorem residual_eq_zero_iff (haug : m.augmented = true) :
    m.residual x = .ok (List.replicate m.rows.length 0) ↔ m.Solves x := by
  have hflag : (!m.augmented) = false := by rw [haug]; rfl
  simp only [residual, hflag, Bool.false_eq_true, if_false]
  by_cases hlen : x.length = m.variableCount
  · rw [if_neg (not_not.mpr hlen), Except.ok.injEq, List.eq_replicate_iff]
    simp [Solves, hlen, sub_eq_zero]
  · rw [if_pos hlen]
    simp [Solves, hlen]

end RatMatrix

/-! ## Reduced systems -/

/-- The variables that lead none of the first `r` rows. -/
def freeColumns (vars r : ℕ) (lead : ℕ → ℕ) : Finset ℕ :=
  (range vars).filter fun j => ∀ i < r, lead i ≠ j

theorem mem_freeColumns {j : ℕ} :
    j ∈ freeColumns vars r lead ↔ j < vars ∧ ∀ i < r, lead i ≠ j := by
  rw [freeColumns, mem_filter, mem_range]

/-- A variable that is not free leads a row. -/
theorem exists_lead_of_notMem {j : ℕ} (hj : j < vars) (hfree : j ∉ freeColumns vars r lead) :
    ∃ i < r, lead i = j := by
  by_contra! hno
  exact hfree (mem_freeColumns.mpr ⟨hj, hno⟩)

/-- A row solved for variable `c` gives the constant less the multiples of the free variables, since
the free variables that it leaves out have the coefficient zero. -/
theorem AffineExpr.value_ofRow {free : List ℕ} {c : ℕ} {row x : List ℚ}
    (hzero : ∀ k ∈ free, k ≤ c → row.getD k 0 = 0) :
    (AffineExpr.ofRow vars free c row).value x =
      row.getD vars 0 - (free.map fun k => row.getD k 0 * x.getD k 0).sum := by
  unfold value ofRow
  rw [sub_eq_add_neg]
  congr 1
  induction free with
  | nil => rfl
  | cons k free ih =>
    obtain ⟨hk, hfree⟩ := List.forall_mem_cons.mp hzero
    rw [List.filterMap_cons, List.map_cons, List.sum_cons, neg_add, ← ih hfree]
    by_cases hterm : c < k ∧ row.getD k 0 ≠ 0
    · rw [if_pos hterm, List.map_cons, List.sum_cons, neg_mul]
    · have hcoeff : row.getD k 0 = 0 := by
        by_contra hne
        exact hterm ⟨not_le.mp fun hle => hne (hk hle), hne⟩
      rw [if_neg hterm, hcoeff, zero_mul, neg_zero, zero_add]

/-- What `classify` answers when no variable is free. -/
def leadingValues (vars : ℕ) (rows : List (List ℚ)) : List ℚ :=
  (List.range vars).map fun j =>
    match (leadingRows vars rows).find? (·.1 = j) with
    | some (_, row) => row.getD vars 0
    | none => 0

theorem length_leadingValues (vars : ℕ) (rows : List (List ℚ)) :
    (leadingValues vars rows).length = vars := by
  rw [leadingValues, List.length_map, List.length_range]

namespace Reduced

/-- Row `i` determines its leading variable by the free ones. -/
theorem solvedBy_row_iff (hs : Reduced vars r lead rows) {i : ℕ} (hi : i < r) (x : ℕ → ℚ) :
    entryAt rows i ∈ solvedBy vars x ↔
      x (lead i) = entryAt rows i vars -
        ∑ k ∈ freeColumns vars r lead, entryAt rows i k * x k := by
  -- of the variables that are not free, only the one that leads row `i` occurs in it
  have hlead : ∑ j ∈ (range vars).filter (fun j => ¬∀ k < r, lead k ≠ j),
      entryAt rows i j * x j = x (lead i) := by
    rw [Finset.sum_eq_single (lead i)]
    · rw [hs.lead_eq_one i hi, one_mul]
    · intro j hj hne
      rw [mem_filter] at hj
      push Not at hj
      obtain ⟨-, k, hk, rfl⟩ := hj
      rw [hs.column hk (fun hik => hne (hik ▸ rfl)), zero_mul]
    · intro hnot
      rw [mem_filter, mem_range] at hnot
      exact absurd ⟨hs.lead_lt i hi, fun hall => hall i hi rfl⟩ hnot
  rw [mem_solvedBy_iff, ← Finset.sum_filter_add_sum_filter_not (range vars)
    (fun j => ∀ k < r, lead k ≠ j), hlead, eq_sub_iff_add_eq, add_comm]
  rfl

/-- The free variables can have any values, and the leading ones then solve their rows. -/
theorem exists_extension (hs : Reduced vars r lead rows) (choice : ℕ → ℚ) :
    ∃ x : ℕ → ℚ, (∀ k ∈ freeColumns vars r lead, x k = choice k) ∧
      ∀ i < r, entryAt rows i ∈ solvedBy vars x := by
  let value : Fin r → ℚ := fun i => entryAt rows i vars -
    ∑ k ∈ freeColumns vars r lead, entryAt rows i k * choice k
  have hfree : ∀ k ∈ freeColumns vars r lead,
      Function.extend (fun i : Fin r => lead i) value choice k = choice k := by
    intro k hk
    exact Function.extend_apply' _ _ _ fun ⟨i, hi⟩ => (mem_freeColumns.mp hk).2 i i.isLt hi
  -- no two rows have the same lead, so that each gets the value that its row demands
  refine ⟨Function.extend (fun i : Fin r => lead i) value choice, hfree, fun i hi => ?_⟩
  rw [hs.solvedBy_row_iff hi, Finset.sum_congr rfl fun k hk => by rw [hfree k hk]]
  exact (strictMono_of_ascends hs.ascends).injective.extend_apply value choice ⟨i, hi⟩

/-- A row without a lead reads `0 = c`. -/
theorem solvedBy_rest_iff (hs : Reduced vars r lead rows) {i : ℕ} (hi : r ≤ i) (x : ℕ → ℚ) :
    entryAt rows i ∈ solvedBy vars x ↔ entryAt rows i vars = 0 := by
  rw [mem_solvedBy_iff, Finset.sum_eq_zero fun j hj => by
    rw [hs.rest_eq_zero i hi j (mem_range.mp hj), zero_mul], eq_comm]

/-- When the other rows read `0 = 0`, the leading ones decide about a solution. -/
theorem rowSpace_le_solvedBy_iff (hs : Reduced vars r lead rows)
    (hrest : ∀ i, r ≤ i → entryAt rows i vars = 0) {x : ℕ → ℚ} :
    rowSpace rows ≤ solvedBy vars x ↔ ∀ i < r, entryAt rows i ∈ solvedBy vars x := by
  rw [ExactLinear.rowSpace_le_solvedBy_iff]
  refine ⟨fun h i _ => h i, fun h i => ?_⟩
  rcases lt_or_ge i r with hi | hi
  · exact h i hi
  · exact (hs.solvedBy_rest_iff hi x).mpr (hrest i hi)

/-! ## Reading off the solutions -/

/-- No row reads `0 = c` exactly when the rows below the leads have the constant zero. -/
theorem contradiction?_eq_none_iff (hs : Reduced vars r lead rows) :
    contradiction? vars rows = none ↔ ∀ i, r ≤ i → entryAt rows i vars = 0 := by
  simp only [contradiction?, Option.map_eq_none_iff, List.findIdx?_eq_none_iff,
    Bool.and_eq_false_imp, Option.isNone_iff_eq_none, decide_eq_false_iff_not, not_not]
  constructor
  · intro h i hi
    by_cases hlen : i < rows.length
    · rw [entryAt, List.getD_eq_getElem _ _ hlen]
      refine h _ (List.getElem_mem hlen) ?_
      rw [← List.getD_eq_getElem _ [] hlen]
      exact hs.lead?_of_le hi
    · exact entryAt_of_length_le (not_lt.mp hlen) vars
  · intro h row hrow hnone
    obtain ⟨i, hi, rfl⟩ := List.mem_iff_getElem.mp hrow
    rw [← List.getD_eq_getElem _ [] hi] at hnone ⊢
    refine h i ?_
    by_contra hlt
    rw [hs.lead?_of_lt (not_le.mp hlt)] at hnone
    exact Option.some_ne_none _ hnone

/-- A row that reads `0 = c` has no lead, and `c` is not zero. -/
theorem contradiction?_eq_some (hs : Reduced vars r lead rows) {i : ℕ} {c : ℚ}
    (h : contradiction? vars rows = some (i, c)) : r ≤ i ∧ entryAt rows i vars ≠ 0 := by
  obtain ⟨k, hk, heq⟩ := Option.map_eq_some_iff.mp h
  obtain ⟨rfl, rfl⟩ := Prod.mk.inj heq
  obtain ⟨hlen, hrow, -⟩ := List.findIdx?_eq_some_iff_getElem.mp hk
  rw [Bool.and_eq_true, Option.isNone_iff_eq_none, decide_eq_true_eq,
    ← List.getD_eq_getElem _ [] hlen] at hrow
  refine ⟨?_, hrow.2⟩
  by_contra hlt
  rw [hs.lead?_of_lt (not_le.mp hlt)] at hrow
  exact Option.some_ne_none _ hrow.1

/-- The leading variables are those of the first `r` rows. -/
theorem leadingRows_eq (hs : Reduced vars r lead rows) :
    leadingRows vars rows = (List.range r).map fun i => (lead i, rows.getD i []) := by
  have hrows : rows = (List.range rows.length).map fun i => rows.getD i [] := by
    refine List.ext_getElem (by simp) fun i hi _ => ?_
    rw [List.getElem_map, List.getElem_range, List.getD_eq_getElem _ _ hi]
  obtain ⟨k, hk⟩ := Nat.exists_eq_add_of_le hs.le_length
  rw [hk] at hrows
  unfold leadingRows
  -- the rows by their numbers, cut after the last lead
  conv_lhs => rw [hrows]
  rw [List.filterMap_map, List.range_add, List.filterMap_append, List.filterMap_map]
  have hhead : (List.range r).filterMap
      ((fun row => (lead? vars row).map (·, row)) ∘ fun i => rows.getD i []) =
        (List.range r).map fun i => (lead i, rows.getD i []) := by
    rw [← List.filterMap_eq_map]
    refine List.filterMap_congr fun i hi => ?_
    rw [Function.comp_apply, hs.lead?_of_lt (List.mem_range.mp hi), Option.map_some]
    rfl
  have htail : (List.range k).filterMap
      (((fun row => (lead? vars row).map (·, row)) ∘ fun i => rows.getD i []) ∘ (r + ·)) = [] := by
    rw [List.filterMap_eq_nil_iff]
    intro i _
    rw [Function.comp_apply, Function.comp_apply, hs.lead?_of_le (Nat.le_add_right r i),
      Option.map_none]
  rw [hhead, htail, List.append_nil]

/-- The columns that `classify` takes for free are those that lead no row. -/
theorem mem_free_iff (hs : Reduced vars r lead rows) {j : ℕ} :
    j ∈ (List.range vars).filter (fun j => (leadingRows vars rows).all (·.1 ≠ j)) ↔
      j ∈ freeColumns vars r lead := by
  rw [hs.leadingRows_eq, mem_freeColumns]
  simp

/-- The expression of a leading variable has the value that its row demands. -/
theorem value_ofRow (hs : Reduced vars r lead rows) {i : ℕ} (hi : i < r) {free : List ℕ}
    (hfree : ∀ j, j ∈ free ↔ j ∈ freeColumns vars r lead) (hnodup : free.Nodup) (x : List ℚ) :
    (AffineExpr.ofRow vars free (lead i) (rows.getD i [])).value x =
      entryAt rows i vars - ∑ k ∈ freeColumns vars r lead, entryAt rows i k * x.getD k 0 := by
  have hzero : ∀ k ∈ free, k ≤ lead i → (rows.getD i []).getD k 0 = 0 := by
    intro k hk hle
    rcases hle.lt_or_eq with hlt | rfl
    · exact hs.before_lead i hi k hlt
    · exact absurd rfl ((mem_freeColumns.mp ((hfree _).mp hk)).2 i hi)
  have htoFinset : free.toFinset = freeColumns vars r lead := by
    ext j
    rw [List.mem_toFinset, hfree]
  rw [AffineExpr.value_ofRow hzero, ← htoFinset, List.sum_toFinset _ hnodup]
  rfl

/-- The row in which `classify` looks up a leading variable is the one that it leads. -/
theorem find?_leadingRows (hs : Reduced vars r lead rows) {i : ℕ} (hi : i < r) :
    (leadingRows vars rows).find? (·.1 = lead i) = some (lead i, rows.getD i []) := by
  -- the leads ascend, so no row before row `i` is found
  rw [hs.leadingRows_eq, List.find?_map]
  have hfind : (List.range r).find?
      ((fun p : ℕ × List ℚ => decide (p.1 = lead i)) ∘ fun k => (lead k, rows.getD k [])) =
        some i := by
    rw [List.find?_range_eq_some]
    refine ⟨decide_eq_true rfl, List.mem_range.mpr hi, fun k hk => ?_⟩
    simp [(hs.ascends k i hk hi).ne]
  rw [hfind, Option.map_some]

/-- The value that a system without free variables gives to a leading variable is the constant of
its row. -/
theorem getD_leadingValues (hs : Reduced vars r lead rows) {i : ℕ} (hi : i < r) :
    (leadingValues vars rows).getD (lead i) 0 = entryAt rows i vars := by
  have hlead : lead i < (leadingValues vars rows).length := by
    rw [length_leadingValues]
    exact hs.lead_lt i hi
  rw [List.getD_eq_getElem _ _ hlead]
  simp only [leadingValues, List.getElem_map, List.getElem_range, hs.find?_leadingRows hi]
  rfl

/-- The answer that is read off a reduced system without free variables is its only solution. -/
theorem solvedBy_iff_eq_leadingValues (hs : Reduced vars r lead rows)
    (hrest : ∀ i, r ≤ i → entryAt rows i vars = 0) (hfree : ∀ j, j ∉ freeColumns vars r lead)
    (x : List ℚ) :
    (x.length = vars ∧ rowSpace rows ≤ solvedBy vars fun j => x.getD j 0) ↔
      x = leadingValues vars rows := by
  have hrow : ∀ i < r, ∀ y : ℕ → ℚ,
      entryAt rows i ∈ solvedBy vars y ↔ y (lead i) = entryAt rows i vars := by
    intro i hi y
    rw [hs.solvedBy_row_iff hi, Finset.sum_eq_zero fun k hk => absurd hk (hfree k), sub_zero]
  rw [hs.rowSpace_le_solvedBy_iff hrest]
  constructor
  · rintro ⟨hx, hsolved⟩
    refine eq_of_getD_eq hx (length_leadingValues vars rows) fun j hj => ?_
    obtain ⟨i, hi, rfl⟩ := exists_lead_of_notMem hj (hfree j)
    rw [hs.getD_leadingValues hi]
    exact (hrow i hi _).mp (hsolved i hi)
  · rintro rfl
    exact ⟨length_leadingValues vars rows,
      fun i hi => (hrow i hi _).mpr (hs.getD_leadingValues hi)⟩

/-- The expressions that are read off a reduced system hold for its solutions and for no other
assignment. -/
theorem solvedBy_iff_expressions (hs : Reduced vars r lead rows)
    (hrest : ∀ i, r ≤ i → entryAt rows i vars = 0) {free : List ℕ}
    (hfree : ∀ j, j ∈ free ↔ j ∈ freeColumns vars r lead) (hnodup : free.Nodup) (x : List ℚ) :
    (rowSpace rows ≤ solvedBy vars fun j => x.getD j 0) ↔
      ∀ e ∈ (leadingRows vars rows).map fun (c, row) => (c, AffineExpr.ofRow vars free c row),
        x.getD e.1 0 = e.2.value x := by
  rw [hs.rowSpace_le_solvedBy_iff hrest, hs.leadingRows_eq, List.map_map]
  simp only [List.forall_mem_map, List.mem_range, Function.comp_apply]
  refine forall₂_congr fun i hi => ?_
  rw [hs.solvedBy_row_iff hi, hs.value_ofRow hi hfree hnodup]

/-- Every choice of the free variables belongs to exactly one solution. -/
theorem existsUnique_solvedBy (hs : Reduced vars r lead rows)
    (hrest : ∀ i, r ≤ i → entryAt rows i vars = 0) (choice : ℕ → ℚ) :
    ∃! x : List ℚ, (x.length = vars ∧ rowSpace rows ≤ solvedBy vars fun j => x.getD j 0) ∧
      ∀ k ∈ freeColumns vars r lead, x.getD k 0 = choice k := by
  simp only [hs.rowSpace_le_solvedBy_iff hrest]
  obtain ⟨y, hchoice, hy⟩ := hs.exists_extension choice
  have hget : ∀ j < vars, ((List.range vars).map y).getD j 0 = y j :=
    fun j hj => getD_map_range y 0 hj
  refine ⟨(List.range vars).map y, ⟨⟨by simp, fun i hi => ?_⟩, fun k hk => ?_⟩, ?_⟩
  · rw [solvedBy_congr hget]
    exact hy i hi
  · rw [hget k (mem_freeColumns.mp hk).1, hchoice k hk]
  · rintro x ⟨⟨hx, hsolved⟩, hxchoice⟩
    refine eq_of_getD_eq hx (by simp) fun j hj => ?_
    rw [hget j hj]
    by_cases hj' : j ∈ freeColumns vars r lead
    · rw [hxchoice j hj', hchoice j hj']
    · -- a leading variable is determined by the free ones, on which both agree
      obtain ⟨i, hi, rfl⟩ := exists_lead_of_notMem hj hj'
      rw [(hs.solvedBy_row_iff hi _).mp (hsolved i hi), (hs.solvedBy_row_iff hi _).mp (hy i hi)]
      refine congrArg _ (Finset.sum_congr rfl fun k hk => ?_)
      rw [hxchoice k hk, hchoice k hk]

end Reduced

namespace RatMatrix

variable {m : RatMatrix}

/-- What is read off a reduced system describes its solutions. -/
theorem describes_classify (hs : Reduced m.variableCount r lead m.rows) :
    (classify m.variableCount m.rows).Describes m := by
  unfold classify
  cases hcontra : contradiction? m.variableCount m.rows with
  | some p =>
    obtain ⟨i, c⟩ := p
    intro x hx
    obtain ⟨hi, hne⟩ := hs.contradiction?_eq_some hcontra
    have hsolved := (solves_iff.mp hx).2 (entryAt_mem_rowSpace m.rows i)
    exact hne ((hs.solvedBy_rest_iff hi _).mp hsolved)
  | none =>
    have hrest := hs.contradiction?_eq_none_iff.mp hcontra
    set free := (List.range m.variableCount).filter fun j =>
      (leadingRows m.variableCount m.rows).all (·.1 ≠ j) with hfreedef
    have hfree : ∀ j, j ∈ free ↔ j ∈ freeColumns m.variableCount r lead :=
      fun j => hs.mem_free_iff
    have hnodup : free.Nodup := List.nodup_range.filter _
    simp only [← hfreedef]
    split_ifs with hempty
    · rw [List.isEmpty_iff] at hempty
      intro x
      rw [solves_iff]
      refine hs.solvedBy_iff_eq_leadingValues hrest (fun j hj => ?_) x
      rw [← hfree, hempty] at hj
      exact List.not_mem_nil hj
    · rw [List.isEmpty_iff] at hempty
      refine ⟨hempty, fun x hx => ?_, fun choice => ?_⟩
      · rw [solves_iff, and_iff_right hx]
        exact hs.solvedBy_iff_expressions hrest hfree hnodup x
      · simp only [solves_iff, hfree]
        exact hs.existsUnique_solvedBy hrest choice

/-- The answer of `solve` describes the solutions of the system. -/
theorem describes_solve (hm : m.WellFormed) (haug : m.augmented = true) :
    ∃ s, m.solve = .ok s ∧ s.Describes m := by
  obtain ⟨r, lead, hs⟩ := reduced_reduce hm
  rw [← variableCount_reduce hm] at hs
  have hdescribes := describes_classify hs
  rw [variableCount_reduce hm] at hdescribes
  refine ⟨_, by rw [solve, if_pos haug], ?_⟩
  -- what describes the reduced system describes the system, as both have the same solutions
  generalize classify m.variableCount m.reduce.matrix.rows = s at hdescribes
  cases s <;>
    simpa only [Solution.Describes, solves_reduce hm, variableCount_reduce hm] using hdescribes

end RatMatrix

namespace Solution

variable {m : RatMatrix}

/-- Systems without solutions are those that are reported as inconsistent. -/
theorem Describes.isConsistent_iff {s : Solution} (h : s.Describes m) :
    s.isConsistent = true ↔ ∃ x, m.Solves x := by
  cases s with
  | unique values => exact ⟨fun _ => ⟨values, (h values).mpr rfl⟩, fun _ => rfl⟩
  | infinite free expressions =>
    refine ⟨fun _ => ?_, fun _ => rfl⟩
    obtain ⟨x, ⟨hx, -⟩, -⟩ := h.2.2 fun _ => 0
    exact ⟨x, hx⟩
  | inconsistent row constant =>
    exact ⟨fun hs => Bool.noConfusion hs, fun ⟨x, hx⟩ => absurd hx (h x)⟩

/-- A unique solution is reported when there is exactly one. -/
theorem Describes.isUnique_iff {s : Solution} (h : s.Describes m) :
    s.isUnique = true ↔ ∃! x, m.Solves x := by
  cases s with
  | unique values =>
    exact ⟨fun _ => ⟨values, (h values).mpr rfl, fun x => (h x).mp⟩, fun _ => rfl⟩
  | infinite free expressions =>
    refine ⟨fun hs => Bool.noConfusion hs, fun ⟨x, _, honly⟩ => ?_⟩
    -- a free variable with the values zero and one belongs to two solutions
    obtain ⟨v, hv⟩ := List.exists_mem_of_ne_nil free h.1
    obtain ⟨y, ⟨hy, hyv⟩, -⟩ := h.2.2 fun _ => 0
    obtain ⟨z, ⟨hz, hzv⟩, -⟩ := h.2.2 fun _ => 1
    have hzero := hyv v hv
    rw [(honly y hy).trans (honly z hz).symm, hzv v hv] at hzero
    exact absurd hzero one_ne_zero
  | inconsistent row constant =>
    exact ⟨fun hs => Bool.noConfusion hs, fun ⟨x, hx, _⟩ => absurd hx (h x)⟩

end Solution

namespace RatMatrix

/-- **The answer of `solve` is exact.** Every system is answered, with no operation of its reduction
refused. A unique solution is the only assignment that solves the system, and leaves no residual.
Expressions in free variables, of which there is one at least, hold for the solutions and for no
other assignment, and each choice of the free variables belongs to exactly one solution. The answer
that there is no solution is given exactly when there is none. -/
theorem solve_exact (m : RatMatrix) (hm : m.WellFormed) (haug : m.augmented = true) :
    ∃ s, m.solve = .ok s ∧ m.reduce.transcript.replay m = .ok m.reduce.matrix ∧
      (∀ values, s = .unique values →
        values.length = m.variableCount ∧ (∀ x, m.Solves x ↔ x = values) ∧
          m.residual values = .ok (List.replicate m.shape.rows 0)) ∧
      (∀ free expressions, s = .infinite free expressions →
        free ≠ [] ∧
          (∀ x, x.length = m.variableCount →
            (m.Solves x ↔ ∀ e ∈ expressions, x.getD e.1 0 = e.2.value x)) ∧
          ∀ choice : ℕ → ℚ, ∃! x, m.Solves x ∧ ∀ v ∈ free, x.getD v 0 = choice v) ∧
      ((∃ row constant, s = .inconsistent row constant) ↔ ¬∃ x, m.Solves x) := by
  obtain ⟨s, hsolve, hs⟩ := describes_solve hm haug
  refine ⟨s, hsolve, (replay_reduce hm).2, ?_, ?_, ?_⟩
  · rintro values rfl
    have hvalues := (hs values).mpr rfl
    refine ⟨hvalues.1, hs, ?_⟩
    rw [← hm.rectangular.length_eq]
    exact (residual_eq_zero_iff haug).mpr hvalues
  · rintro free expressions rfl
    exact hs
  · rw [← hs.isConsistent_iff]
    cases s <;> simp [Solution.isConsistent]

/-- Two equations in three variables leave one of them free. -/
theorem solve_exact_two_equations :
    (⟨⟨2, 4⟩, [[0, 2, 4, 6], [1, 1, 1, 1]], true⟩ : RatMatrix).solve =
        .ok (.infinite [2] [(0, ⟨-2, [(2, 1)]⟩), (1, ⟨3, [(2, -2)]⟩)]) ∧
      ∃! x, (⟨⟨2, 4⟩, [[0, 2, 4, 6], [1, 1, 1, 1]], true⟩ : RatMatrix).Solves x ∧
        ∀ v ∈ [2], x.getD v 0 = 5 := by
  have hanswer : (⟨⟨2, 4⟩, [[0, 2, 4, 6], [1, 1, 1, 1]], true⟩ : RatMatrix).solve =
      .ok (.infinite [2] [(0, ⟨-2, [(2, 1)]⟩), (1, ⟨3, [(2, -2)]⟩)]) := by decide +kernel
  obtain ⟨s, hsolve, -, -, hinfinite, -⟩ :=
    solve_exact ⟨⟨2, 4⟩, [[0, 2, 4, 6], [1, 1, 1, 1]], true⟩ (by decide) rfl
  obtain rfl := Except.ok.inj (hanswer.symm.trans hsolve)
  exact ⟨hsolve, (hinfinite _ _ rfl).2.2 fun _ => 5⟩

end RatMatrix

end ExactLinear
