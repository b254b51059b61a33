import ExactLinear.Proofs.Pivoting

/-!
# The two passes of an elimination

`Staircase j r lead rows` is the invariant of the forward pass: in the first `j` columns the first
`r` rows have a leading one each, in the ascending columns `lead`, and the other rows are zero. One
column of the pass either finds no pivot and leaves the rows alone, or adds a step to the staircase.

`ReducedFrom i` adds what the backward pass has achieved when it has come up to row `i`: the columns
of the leads from row `i` on are zero above them as well. The pass ends with `ReducedFrom 0`.
-/

namespace ExactLinear

open RatMatrix (entryAt lead? pivotRow?)
open RowOp

variable {n w j r vars : ℕ} {lead : ℕ → ℕ} {rows : List (List ℚ)}

/-! ## The lead of a row -/

/-- The lead is the first variable column with an entry other than zero. -/
theorem lead?_eq_some_iff {c : ℕ} {row : List ℚ} :
    lead? vars row = some c ↔ c < vars ∧ row.getD c 0 ≠ 0 ∧ ∀ j < c, row.getD j 0 = 0 := by
  simp only [lead?, leadingIndex?, List.findIdx?_eq_some_iff_getElem, List.length_take,
    List.getElem_take, decide_eq_true_eq, not_not]
  constructor
  · rintro ⟨hc, hne, hbefore⟩
    have hlen : c < row.length := by omega
    refine ⟨by omega, by rwa [List.getD_eq_getElem _ _ hlen], fun j hj => ?_⟩
    rw [List.getD_eq_getElem _ _ (hj.trans hlen)]
    exact hbefore j hj
  · rintro ⟨hc, hne, hbefore⟩
    have hlen : c < row.length := by
      by_contra hlt
      exact hne (List.getD_eq_default _ _ (by omega))
    refine ⟨by omega, by rwa [List.getD_eq_getElem _ _ hlen] at hne, fun j hj => ?_⟩
    rw [← List.getD_eq_getElem _ 0 (hj.trans hlen)]
    exact hbefore j hj

/-- A row has no lead when its variable part is zero. -/
theorem lead?_eq_none_iff {row : List ℚ} :
    lead? vars row = none ↔ ∀ j < vars, row.getD j 0 = 0 := by
  simp only [lead?, leadingIndex?, List.findIdx?_eq_none_iff, decide_eq_false_iff_not, not_not]
  constructor
  · intro h j hj
    by_cases hlen : j < row.length
    · rw [List.getD_eq_getElem _ _ hlen]
      exact h _ (List.mem_take_iff_getElem.mpr ⟨j, by omega, rfl⟩)
    · exact List.getD_eq_default _ _ (by omega)
  · intro h x hx
    obtain ⟨j, hj, rfl⟩ := List.mem_take_iff_getElem.mp hx
    rw [← List.getD_eq_getElem _ 0 (by omega)]
    exact h j (by omega)

/-! ## The staircase of the forward pass -/

/-- In the first `j` columns the first `r` rows have leading ones at the ascending columns `lead`,
and the other rows are zero. -/
structure Staircase (j r : ℕ) (lead : ℕ → ℕ) (rows : List (List ℚ)) : Prop where
  ascends : ∀ i k, i < k → k < r → lead i < lead k
  lead_lt : ∀ i < r, lead i < j
  lead_eq_one : ∀ i < r, entryAt rows i (lead i) = 1
  before_lead : ∀ i < r, ∀ c < lead i, entryAt rows i c = 0
  rest_eq_zero : ∀ i, r ≤ i → ∀ c < j, entryAt rows i c = 0

namespace Staircase

/-- Before the first column every list of rows is a staircase. -/
theorem zero (lead : ℕ → ℕ) (rows : List (List ℚ)) : Staircase 0 0 lead rows where
  ascends _ _ _ hk := absurd hk (Nat.not_lt_zero _)
  lead_lt _ hi := absurd hi (Nat.not_lt_zero _)
  lead_eq_one _ hi := absurd hi (Nat.not_lt_zero _)
  before_lead _ hi := absurd hi (Nat.not_lt_zero _)
  rest_eq_zero _ _ _ hc := absurd hc (Nat.not_lt_zero _)

/-- A column without a pivot is zero in all rows that are left. -/
theorem skip (hs : Staircase j r lead rows) (hnone : pivotRow? rows r j = none) :
    Staircase (j + 1) r lead rows where
  ascends := hs.ascends
  lead_lt i hi := Nat.lt_succ_of_lt (hs.lead_lt i hi)
  lead_eq_one := hs.lead_eq_one
  before_lead := hs.before_lead
  rest_eq_zero i hi c hc := by
    rcases Nat.lt_succ_iff_lt_or_eq.mp hc with hc | rfl
    · exact hs.rest_eq_zero i hi c hc
    · exact entryAt_eq_zero_of_pivotRow?_eq_none hnone hi

/-- A column with a pivot adds a step to the staircase. -/
theorem pivot (hs : Staircase j r lead rows) (h : Rectangular n w rows) {p : ℕ} (hrp : r ≤ p)
    (hp : p < n) (hpivot : entryAt rows p j ≠ 0) :
    Staircase (j + 1) (r + 1) (Function.update lead r j)
      (actAll rows (Reduction.pivotOps rows r p j)) := by
  have hentry := (pivotOps_spec h hrp hp hpivot).2
  have hlead : ∀ i < r, Function.update lead r j i = lead i :=
    fun i hi => Function.update_of_ne hi.ne _ _
  constructor
  case ascends =>
    intro i k hik hk
    rw [hlead i (by omega)]
    rcases Nat.lt_succ_iff_lt_or_eq.mp hk with hk | rfl
    · rw [hlead k hk]
      exact hs.ascends i k hik hk
    · rw [Function.update_self]
      exact hs.lead_lt i hik
  case lead_lt =>
    intro i hi
    rcases Nat.lt_succ_iff_lt_or_eq.mp hi with hi | rfl
    · rw [hlead i hi]
      exact Nat.lt_succ_of_lt (hs.lead_lt i hi)
    · rw [Function.update_self]
      exact Nat.lt_succ_self j
  case lead_eq_one =>
    intro i hi
    rcases Nat.lt_succ_iff_lt_or_eq.mp hi with hi | rfl
    · rw [hlead i hi, hentry, if_pos hi]
      exact hs.lead_eq_one i hi
    · rw [Function.update_self, hentry, if_neg (lt_irrefl i), if_pos rfl, div_self hpivot]
  case before_lead =>
    intro i hi c hc
    rcases Nat.lt_succ_iff_lt_or_eq.mp hi with hi | rfl
    · rw [hlead i hi] at hc
      rw [hentry, if_pos hi]
      exact hs.before_lead i hi c hc
    · rw [Function.update_self] at hc
      rw [hentry, if_neg (lt_irrefl i), if_pos rfl, hs.rest_eq_zero p hrp c hc, zero_div]
  case rest_eq_zero =>
    intro i hi c hc
    have hswap : r ≤ Equiv.swap r p i := by
      rw [Equiv.swap_apply_def]
      split_ifs <;> omega
    rw [hentry, if_neg (by omega), if_neg (by omega)]
    rcases Nat.lt_succ_iff_lt_or_eq.mp hc with hc | rfl
    · rw [hs.rest_eq_zero _ hswap c hc, hs.rest_eq_zero p hrp c hc]
      ring
    · rw [div_self hpivot]
      ring

/-- The forward pass performs genuine operations, and extends the staircase over its columns. -/
theorem forwardOps (hs : Staircase j r lead rows) (h : Rectangular n w rows) (k : ℕ) :
    AllGenuine n (Reduction.forwardOps (List.range' j k) rows r) ∧
      ∃ r' lead', Staircase (j + k) r' lead'
        (actAll rows (Reduction.forwardOps (List.range' j k) rows r)) := by
  -- over the columns that are left; each of them changes the rows and may add a step
  induction k generalizing j r lead rows with
  | zero => exact ⟨AllGenuine.nil n, r, lead, hs⟩
  | succ k ih =>
    rw [List.range'_succ]
    unfold Reduction.forwardOps
    cases hpivot : pivotRow? rows r j with
    | none =>
      have hnext := ih (hs.skip hpivot) h
      rwa [Nat.add_right_comm] at hnext
    | some p =>
      obtain ⟨hrp, hp, hne⟩ := pivotRow?_spec hpivot
      rw [h.length_eq] at hp
      have hgen := (pivotOps_spec h hrp hp hne).1
      obtain ⟨hgen', hnext⟩ := ih (hs.pivot h hrp hp hne) (hgen.rectangular h)
      rw [Nat.add_right_comm] at hnext
      refine ⟨hgen.append hgen', ?_⟩
      rwa [actAll_append]

/-- The rows with a step have their leads there. -/
theorem lead?_of_lt (hs : Staircase vars r lead rows) {i : ℕ} (hi : i < r) :
    lead? vars (rows.getD i []) = some (lead i) := by
  refine lead?_eq_some_iff.mpr ⟨hs.lead_lt i hi, ?_, hs.before_lead i hi⟩
  have hone := hs.lead_eq_one i hi
  rw [entryAt] at hone
  rw [hone]
  exact one_ne_zero

/-- The rows below the staircase have no lead. -/
theorem lead?_of_le (hs : Staircase vars r lead rows) {i : ℕ} (hi : r ≤ i) :
    lead? vars (rows.getD i []) = none :=
  lead?_eq_none_iff.mpr (hs.rest_eq_zero i hi)

/-- The rows of the staircase exist. -/
theorem le_length (hs : Staircase j r lead rows) : r ≤ rows.length := by
  by_contra hlt
  have hone := hs.lead_eq_one rows.length (by omega)
  rw [entryAt_of_length_le le_rfl] at hone
  exact zero_ne_one hone

end Staircase

/-! ## The backward pass -/

/-- Clearing above the lead of row `i` subtracts from each row above it the multiple of row `i` that
it has there. -/
theorem entryAt_clearing (h : Rectangular n w rows) {i : ℕ} (hi : i < n) (l k c : ℕ) :
    entryAt (actAll rows (Reduction.clearing rows i l (List.range i))) k c =
      if k < i then entryAt rows k c - entryAt rows k l * entryAt rows i c
      else entryAt rows k c := by
  have htargets : ∀ k ∈ List.range i, k < n ∧ k ≠ i := by
    intro k hk
    rw [List.mem_range] at hk
    omega
  rw [clearing_eq_subtractions, entryAt_subtractions h hi _ htargets List.nodup_range]
  simp only [List.mem_range]

/-- Clearing above the lead of row `i` keeps the staircase: left of this lead row `i` is zero, so
that nothing is subtracted there. -/
theorem Staircase.clear (hs : Staircase vars r lead rows) (h : Rectangular n w rows) {i : ℕ}
    (hi : i < r) :
    Staircase vars r lead
      (actAll rows (Reduction.clearing rows i (lead i) (List.range i))) := by
  have hrn : r ≤ n := h.length_eq ▸ hs.le_length
  have hentry := entryAt_clearing h (hi.trans_le hrn) (lead i)
  have hleft : ∀ k, ∀ c < lead i, entryAt
      (actAll rows (Reduction.clearing rows i (lead i) (List.range i))) k c = entryAt rows k c := by
    intro k c hc
    rw [hentry, hs.before_lead i hi c hc, mul_zero, sub_zero, ite_self]
  have hbelow : ∀ k, i ≤ k → ∀ c, entryAt
      (actAll rows (Reduction.clearing rows i (lead i) (List.range i))) k c = entryAt rows k c :=
    fun k hk c => by rw [hentry, if_neg (by omega)]
  constructor
  case ascends => exact hs.ascends
  case lead_lt => exact hs.lead_lt
  case lead_eq_one =>
    intro k hk
    rcases lt_or_ge k i with hki | hki
    · rw [hleft k _ (hs.ascends k i hki hi)]
      exact hs.lead_eq_one k hk
    · rw [hbelow k hki]
      exact hs.lead_eq_one k hk
  case before_lead =>
    intro k hk c hc
    rcases lt_or_ge k i with hki | hki
    · rw [hleft k c (hc.trans (hs.ascends k i hki hi))]
      exact hs.before_lead k hk c hc
    · rw [hbelow k hki]
      exact hs.before_lead k hk c hc
  case rest_eq_zero =>
    intro k hk c hc
    rw [hbelow k (by omega)]
    exact hs.rest_eq_zero k hk c hc

/-- A staircase over all variable columns in which the columns of the leads from row `i` on are zero
above these leads. -/
structure ReducedFrom (i vars r : ℕ) (lead : ℕ → ℕ) (rows : List (List ℚ)) : Prop extends
    Staircase vars r lead rows where
  above_lead : ∀ k, i ≤ k → k < r → ∀ l < k, entryAt rows l (lead k) = 0

/-- A staircase over all variable columns with zeros above and below its leads. -/
abbrev Reduced (vars r : ℕ) (lead : ℕ → ℕ) (rows : List (List ℚ)) : Prop :=
  ReducedFrom 0 vars r lead rows

namespace ReducedFrom

variable {i : ℕ}

/-- Before the backward pass nothing is claimed above the leads. -/
theorem ofStaircase (hs : Staircase vars r lead rows) (hr : r ≤ i) :
    ReducedFrom i vars r lead rows where
  toStaircase := hs
  above_lead k hik hk := absurd hk (by omega)

/-- A row without a lead has nothing to clear. -/
theorem skip (hs : ReducedFrom (i + 1) vars r lead rows) (hr : r ≤ i) :
    ReducedFrom i vars r lead rows :=
  ofStaircase hs.toStaircase hr

/-- Clearing above the lead of row `i` also keeps the columns that were cleared before, as row `i`
is zero there. -/
theorem clear (hs : ReducedFrom (i + 1) vars r lead rows) (h : Rectangular n w rows) (hi : i < r) :
    ReducedFrom i vars r lead
      (actAll rows (Reduction.clearing rows i (lead i) (List.range i))) where
  toStaircase := hs.toStaircase.clear h hi
  above_lead k hik hk l hl := by
    have hin : i < n := hi.trans_le (h.length_eq ▸ hs.le_length)
    rw [entryAt_clearing h hin]
    rcases hik.eq_or_lt with rfl | hik
    · rw [if_pos hl, hs.lead_eq_one i hi, mul_one, sub_self]
    · rw [hs.above_lead k hik hk l hl, hs.above_lead k hik hk i hik, mul_zero, sub_zero, ite_self]

/-- The backward pass performs genuine operations, and clears the columns of all leads. -/
theorem backwardOps (hs : ReducedFrom i vars r lead rows) (h : Rectangular n w rows) :
    AllGenuine n (Reduction.backwardOps vars i rows) ∧
      Reduced vars r lead (actAll rows (Reduction.backwardOps vars i rows)) := by
  induction i generalizing rows with
  | zero => exact ⟨AllGenuine.nil n, hs⟩
  | succ i ih =>
    unfold Reduction.backwardOps
    -- the rows below the staircase have no lead and are passed over
    rcases lt_or_ge i r with hi | hi
    · have hin : i < n := hi.trans_le (h.length_eq ▸ hs.le_length)
      have hgen : AllGenuine n (Reduction.clearing rows i (lead i) (List.range i)) :=
        allGenuine_subtractions hin _ fun k hk => by rw [List.mem_range] at hk; omega
      obtain ⟨hgen', hred⟩ := ih (hs.clear h hi) (hgen.rectangular h)
      rw [hs.lead?_of_lt hi]
      refine ⟨hgen.append hgen', ?_⟩
      rwa [actAll_append]
    · rw [hs.lead?_of_le hi]
      exact ih (hs.skip hi) h

end ReducedFrom

/-- The column of a lead is zero in all other rows. -/
theorem Reduced.column (hs : Reduced vars r lead rows) {i k : ℕ} (hi : i < r) (hk : k ≠ i) :
    entryAt rows k (lead i) = 0 := by
  rcases lt_or_gt_of_ne hk with hki | hik
  · exact hs.above_lead i (Nat.zero_le i) hi k hki
  · rcases lt_or_ge k r with hkr | hkr
    · exact hs.before_lead k hkr _ (hs.ascends i k hik hkr)
    · exact hs.rest_eq_zero k hkr _ (hs.lead_lt i hi)

/-! ## The whole elimination -/

/-- The forward pass over all variable columns performs genuine operations, and leaves rows with
which the backward pass can start. -/
theorem forward_spec {m : RatMatrix} (hm : m.WellFormed) :
    AllGenuine m.shape.rows (Reduction.forwardOps (List.range m.variableCount) m.rows 0) ∧
      ∃ r lead, ReducedFrom m.rows.length m.variableCount r lead
        (actAll m.rows (Reduction.forwardOps (List.range m.variableCount) m.rows 0)) := by
  have h := hm.rectangular
  obtain ⟨hgen, r, lead, hstair⟩ :=
    (Staircase.zero (fun _ => 0) m.rows).forwardOps h m.variableCount
  rw [Nat.zero_add, ← List.range_eq_range'] at hstair
  rw [← List.range_eq_range'] at hgen
  refine ⟨hgen, r, lead, ReducedFrom.ofStaircase hstair ?_⟩
  simpa [h.length_eq, (hgen.rectangular h).length_eq] using hstair.le_length

/-- The operations of an elimination are genuine, and they leave reduced rows. -/
theorem operations_spec {m : RatMatrix} (hm : m.WellFormed) :
    AllGenuine m.shape.rows (Reduction.operations m) ∧
      ∃ r lead, Reduced m.variableCount r lead
        (actAll m.rows (Reduction.operations m)) := by
  obtain ⟨hgen, r, lead, hstart⟩ := forward_spec hm
  obtain ⟨hgen', hred⟩ := hstart.backwardOps (hgen.rectangular hm.rectangular)
  refine ⟨hgen.append hgen', r, lead, ?_⟩
  rwa [Reduction.operations, actAll_append]

end ExactLinear
