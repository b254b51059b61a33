import ExactLinear.Proofs.Staircase

/-!
# Reduced row-echelon form

`EchelonForm` says in four clauses what a reduced matrix is: where its zero rows stand, and for the
lead of every other row its value, its place and its column. `isReduced` looks through the rows
once, from top to bottom; `isReduced_eq_true_iff` shows that it decides the form. In between stands
the staircase with zeros above and below its leads, which the passes of an elimination work with.
-/

namespace ExactLinear

open RatMatrix (entryAt lead? isUnitColumn leadsAscend)
open RowOp

variable {vars r : ℕ} {lead : ℕ → ℕ} {rows : List (List ℚ)}

/-! ## The scan from top to bottom -/

/-- No row is counted when the column is zero. -/
theorem countP_eq_zero_iff {c : ℕ} :
    rows.countP (fun row => decide (row.getD c 0 ≠ 0)) = 0 ↔ ∀ k, entryAt rows k c = 0 := by
  simp only [List.countP_eq_zero, decide_eq_true_eq, not_not]
  constructor
  · intro h k
    by_cases hk : k < rows.length
    · rw [entryAt, List.getD_eq_getElem _ _ hk]
      exact h _ (List.getElem_mem hk)
    · exact entryAt_of_length_le (by omega) c
  · intro h row hrow
    obtain ⟨k, hk, rfl⟩ := List.mem_iff_getElem.mp hrow
    have hz := h k
    rwa [entryAt, List.getD_eq_getElem _ _ hk] at hz

/-- A column that is not zero in row `i` is a unit column when it is zero in all other rows. -/
theorem isUnitColumn_iff {i c : ℕ} (hi : entryAt rows i c ≠ 0) :
    isUnitColumn rows c = true ↔ ∀ k, k ≠ i → entryAt rows k c = 0 := by
  simp only [isUnitColumn, decide_eq_true_eq]
  induction rows generalizing i with
  | nil => simp [entryAt] at hi
  | cons row rest ih =>
    have hhead : entryAt (row :: rest) 0 c = row.getD c 0 := rfl
    have htail : ∀ k, entryAt (row :: rest) (k + 1) c = entryAt rest k c := fun _ => rfl
    rw [List.countP_cons]
    cases i with
    | zero =>
      rw [hhead] at hi
      rw [if_pos (by simpa using hi), Nat.add_eq_right, countP_eq_zero_iff]
      constructor
      · intro h k hk
        obtain ⟨k, rfl⟩ := Nat.exists_eq_succ_of_ne_zero hk
        exact h k
      · exact fun h k => h (k + 1) (Nat.succ_ne_zero k)
    | succ i =>
      rw [htail] at hi
      by_cases hrow : row.getD c 0 = 0
      · rw [if_neg (by simpa using hrow), Nat.add_zero, ih hi]
        constructor
        · intro h k hk
          cases k with
          | zero => exact hrow
          | succ k => exact h k (by omega)
        · exact fun h k hk => h (k + 1) (by omega)
      · rw [if_pos (by simpa using hrow), Nat.add_eq_right, countP_eq_zero_iff]
        exact ⟨fun h => absurd (h i) hi, fun h => absurd (h 0 (by omega)) hrow⟩

/-- What the scan finds out about the rows of a list, part of the rows `all`: the first `r` rows
have leads in ascending columns from `least` on, with ones in unit columns, and the others have
none. -/
structure Scanned (vars : ℕ) (all : List (List ℚ)) (least r : ℕ) (lead : ℕ → ℕ)
    (rows : List (List ℚ)) : Prop where
  ascends : ∀ i k, i < k → k < r → lead i < lead k
  least_le : ∀ i < r, least ≤ lead i
  lead?_eq : ∀ i < r, lead? vars (rows.getD i []) = some (lead i)
  lead_eq_one : ∀ i < r, entryAt rows i (lead i) = 1
  isUnitColumn_lead : ∀ i < r, isUnitColumn all (lead i) = true
  rest : ∀ i, r ≤ i → lead? vars (rows.getD i []) = none

namespace Scanned

variable {all rest : List (List ℚ)} {least c : ℕ} {row : List ℚ}

/-- A scan of rows that have no lead. -/
theorem of_none (hnone : ∀ i, lead? vars (rows.getD i []) = none) :
    Scanned vars all least 0 lead rows where
  ascends _ _ _ hk := absurd hk (Nat.not_lt_zero _)
  least_le _ hi := absurd hi (Nat.not_lt_zero _)
  lead?_eq _ hi := absurd hi (Nat.not_lt_zero _)
  lead_eq_one _ hi := absurd hi (Nat.not_lt_zero _)
  isUnitColumn_lead _ hi := absurd hi (Nat.not_lt_zero _)
  rest i _ := hnone i

/-- The scan of a row without a lead followed by the scan of the rows after it. -/
theorem cons_none (hrow : lead? vars row = none) :
    (∃ r lead, Scanned vars all least r lead (row :: rest)) ↔
      ∀ r ∈ rest, lead? vars r = none := by
  constructor
  · rintro ⟨r, lead, hs⟩ x hx
    obtain rfl : r = 0 := by
      by_contra hr
      have hsome := hs.lead?_eq 0 (by omega)
      rw [List.getD_cons_zero, hrow] at hsome
      exact Option.some_ne_none _ hsome.symm
    obtain ⟨i, hi, rfl⟩ := List.mem_iff_getElem.mp hx
    have hnone := hs.rest (i + 1) (Nat.zero_le _)
    rwa [List.getD_cons_succ, List.getD_eq_getElem _ _ hi] at hnone
  · intro hrest
    refine ⟨0, fun _ => 0, of_none fun i => ?_⟩
    cases i with
    | zero => exact hrow
    | succ i =>
      rw [List.getD_cons_succ]
      by_cases hi : i < rest.length
      · rw [List.getD_eq_getElem _ _ hi]
        exact hrest _ (List.getElem_mem hi)
      · rw [List.getD_eq_default _ _ (by omega)]
        exact lead?_eq_none_iff.mpr fun _ _ => rfl

/-- After its first row a scan goes on with the rows that are left. -/
theorem tail (hs : Scanned vars all least (r + 1) lead (row :: rest)) :
    Scanned vars all (lead 0 + 1) r (fun i => lead (i + 1)) rest where
  ascends i k hik hk := hs.ascends (i + 1) (k + 1) (by omega) (by omega)
  least_le i hi := hs.ascends 0 (i + 1) (by omega) (by omega)
  lead?_eq i hi := hs.lead?_eq (i + 1) (by omega)
  lead_eq_one i hi := hs.lead_eq_one (i + 1) (by omega)
  isUnitColumn_lead i hi := hs.isUnitColumn_lead (i + 1) (by omega)
  rest i hi := hs.rest (i + 1) (by omega)

/-- The leads of a list whose first row leads at `c`. -/
def leadsCons (c : ℕ) (lead : ℕ → ℕ) (i : ℕ) : ℕ :=
  Nat.casesOn (motive := fun _ => ℕ) i c lead

/-- A row with a lead can be put before the rows that a scan goes on with. -/
theorem cons (hs : Scanned vars all (c + 1) r lead rest) (hleast : least ≤ c)
    (hrow : lead? vars row = some c) (hone : row.getD c 0 = 1)
    (hunit : isUnitColumn all c = true) :
    Scanned vars all least (r + 1) (leadsCons c lead) (row :: rest) := by
  constructor
  case ascends =>
    intro i k hik hk
    obtain ⟨k, rfl⟩ := Nat.exists_eq_succ_of_ne_zero (by omega : k ≠ 0)
    cases i with
    | zero => exact hs.least_le k (by omega)
    | succ i => exact hs.ascends i k (by omega) (by omega)
  case least_le =>
    intro i hi
    cases i with
    | zero => exact hleast
    | succ i => exact (hleast.trans (Nat.le_succ c)).trans (hs.least_le i (by omega))
  case lead?_eq =>
    intro i hi
    cases i with
    | zero => exact hrow
    | succ i => exact hs.lead?_eq i (by omega)
  case lead_eq_one =>
    intro i hi
    cases i with
    | zero => exact hone
    | succ i => exact hs.lead_eq_one i (by omega)
  case isUnitColumn_lead =>
    intro i hi
    cases i with
    | zero => exact hunit
    | succ i => exact hs.isUnitColumn_lead i (by omega)
  case rest =>
    intro i hi
    obtain ⟨i, rfl⟩ := Nat.exists_eq_succ_of_ne_zero (by omega : i ≠ 0)
    exact hs.rest i (by omega)

/-- The scan of a row with a lead followed by the scan of the rows after it. -/
theorem cons_some (hrow : lead? vars row = some c) :
    (∃ r lead, Scanned vars all least r lead (row :: rest)) ↔
      (least ≤ c ∧ row.getD c 0 = 1 ∧ isUnitColumn all c = true) ∧
        ∃ r lead, Scanned vars all (c + 1) r lead rest := by
  constructor
  · rintro ⟨r, lead, hs⟩
    cases r with
    | zero =>
      have hnone := hs.rest 0 le_rfl
      rw [List.getD_cons_zero, hrow] at hnone
      exact absurd hnone (Option.some_ne_none c)
    | succ r =>
      have hsome := hs.lead?_eq 0 (Nat.succ_pos r)
      rw [List.getD_cons_zero, hrow] at hsome
      obtain rfl := Option.some.inj hsome
      exact ⟨⟨hs.least_le 0 (Nat.succ_pos r), hs.lead_eq_one 0 (Nat.succ_pos r),
        hs.isUnitColumn_lead 0 (Nat.succ_pos r)⟩, r, _, hs.tail⟩
  · rintro ⟨⟨hleast, hone, hunit⟩, r, lead, hs⟩
    exact ⟨r + 1, _, hs.cons hleast hrow hone hunit⟩

end Scanned

/-- The scan succeeds when there are leads as it looks for. -/
theorem leadsAscend_iff (all : List (List ℚ)) (least : ℕ) :
    leadsAscend vars all least rows = true ↔ ∃ r lead, Scanned vars all least r lead rows := by
  induction rows generalizing least with
  | nil =>
    exact ⟨fun _ => ⟨0, fun _ => 0, Scanned.of_none fun _ => lead?_eq_none_iff.mpr fun _ _ => rfl⟩,
      fun _ => rfl⟩
  | cons row rest ih =>
    cases hrow : lead? vars row with
    | none => simp [leadsAscend, hrow, Scanned.cons_none hrow]
    | some c => simp [leadsAscend, hrow, Scanned.cons_some hrow, ih, and_assoc]

/-- A matrix passes for reduced when its rows are a staircase with zeros above and below the leads.
-/
theorem isReduced_iff_exists_reduced {m : RatMatrix} :
    m.isReduced = true ↔ ∃ r lead, Reduced m.variableCount r lead m.rows := by
  rw [RatMatrix.isReduced, leadsAscend_iff]
  refine exists_congr fun r => exists_congr fun lead => ⟨fun hs => ?_, fun hs => ?_⟩
  · have hlead := fun i hi => lead?_eq_some_iff.mp (hs.lead?_eq i hi)
    constructor
    case toStaircase =>
      constructor
      case ascends => exact hs.ascends
      case lead_lt => exact fun i hi => (hlead i hi).1
      case lead_eq_one => exact hs.lead_eq_one
      case before_lead => exact fun i hi => (hlead i hi).2.2
      case rest_eq_zero => exact fun i hi => lead?_eq_none_iff.mp (hs.rest i hi)
    case above_lead =>
      exact fun k _ hk l hl =>
        (isUnitColumn_iff (hlead k hk).2.1).mp (hs.isUnitColumn_lead k hk) l hl.ne
  · constructor
    case ascends => exact hs.ascends
    case least_le => exact fun i _ => Nat.zero_le _
    case lead?_eq => exact fun i hi => hs.lead?_of_lt hi
    case lead_eq_one => exact hs.lead_eq_one
    case isUnitColumn_lead =>
      intro i hi
      have hne : entryAt m.rows i (lead i) ≠ 0 := by
        rw [hs.lead_eq_one i hi]
        exact one_ne_zero
      exact (isUnitColumn_iff hne).mpr fun k hk => hs.column hi hk
    case rest => exact fun i hi => hs.lead?_of_le hi

/-! ## The form -/

namespace RatMatrix

/-- The variable part of row `i` is zero. -/
def ZeroRow (m : RatMatrix) (i : ℕ) : Prop :=
  ∀ j < m.variableCount, entryAt m.rows i j = 0

/-- Among the variable columns, the first entry of row `i` that is not zero stands in column `c`. -/
def LeadsAt (m : RatMatrix) (i c : ℕ) : Prop :=
  c < m.variableCount ∧ entryAt m.rows i c ≠ 0 ∧ ∀ j < c, entryAt m.rows i j = 0

/-- The matrix is in reduced row-echelon form over its variable columns. -/
structure EchelonForm (m : RatMatrix) : Prop where
  /-- The zero rows lie below all others. -/
  zeroRow_below : ∀ i k, i < m.shape.rows → k < m.shape.rows →
    m.ZeroRow i → ¬m.ZeroRow k → k < i
  /-- A lead is a one. -/
  lead_eq_one : ∀ i c, i < m.shape.rows → m.LeadsAt i c → entryAt m.rows i c = 1
  /-- A lead stands to the right of the lead in the row before. -/
  lead_right : ∀ i c d, i + 1 < m.shape.rows → m.LeadsAt i c → m.LeadsAt (i + 1) d → c < d
  /-- In the column of a lead all other rows are zero. -/
  lead_alone : ∀ i k c, i < m.shape.rows → k < m.shape.rows → k ≠ i →
    m.LeadsAt i c → entryAt m.rows k c = 0

variable {m : RatMatrix}

theorem zeroRow_iff {i : ℕ} :
    m.ZeroRow i ↔ lead? m.variableCount (m.rows.getD i []) = none :=
  lead?_eq_none_iff.symm

theorem leadsAt_iff {i c : ℕ} :
    m.LeadsAt i c ↔ lead? m.variableCount (m.rows.getD i []) = some c :=
  lead?_eq_some_iff.symm

/-- A row that is not zero has a lead. -/
theorem exists_leadsAt {i : ℕ} (hi : ¬m.ZeroRow i) : ∃ c, m.LeadsAt i c := by
  rw [zeroRow_iff, ← ne_eq, Option.ne_none_iff_exists'] at hi
  exact hi.imp fun c hc => leadsAt_iff.mpr hc

/-- In a staircase with zeros above and below its leads the leads are those of the steps. -/
theorem leadsAt_iff_of_reduced (hs : Reduced m.variableCount r lead m.rows) {i c : ℕ} :
    m.LeadsAt i c ↔ i < r ∧ lead i = c := by
  rw [leadsAt_iff]
  rcases lt_or_ge i r with hi | hi
  · rw [hs.lead?_of_lt hi, Option.some.injEq, and_iff_right hi]
  · rw [hs.lead?_of_le hi]
    exact ⟨fun h => absurd h.symm (Option.some_ne_none c), fun h => absurd h.1 hi.not_gt⟩

/-- In a staircase with zeros above and below its leads the zero rows are those below the steps. -/
theorem zeroRow_iff_of_reduced (hs : Reduced m.variableCount r lead m.rows) {i : ℕ} :
    m.ZeroRow i ↔ r ≤ i := by
  refine ⟨fun hz => ?_, hs.rest_eq_zero i⟩
  by_contra hi
  rw [zeroRow_iff, hs.lead?_of_lt (not_le.mp hi)] at hz
  exact Option.some_ne_none _ hz

/-- A staircase with zeros above and below its leads has the form. -/
theorem echelonForm_of_reduced (hs : Reduced m.variableCount r lead m.rows) : m.EchelonForm := by
  constructor
  case zeroRow_below =>
    intro i k _ _ hi hk
    rw [zeroRow_iff_of_reduced hs] at hi hk
    omega
  case lead_eq_one =>
    intro i c _ hc
    obtain ⟨hi, rfl⟩ := (leadsAt_iff_of_reduced hs).mp hc
    exact hs.lead_eq_one i hi
  case lead_right =>
    intro i c d _ hc hd
    obtain ⟨-, rfl⟩ := (leadsAt_iff_of_reduced hs).mp hc
    obtain ⟨hi, rfl⟩ := (leadsAt_iff_of_reduced hs).mp hd
    exact hs.ascends i (i + 1) (Nat.lt_succ_self i) hi
  case lead_alone =>
    intro i k c _ _ hki hc
    obtain ⟨hi, rfl⟩ := (leadsAt_iff_of_reduced hs).mp hc
    exact hs.column hi hki

/-- A matrix of the form is a staircase with zeros above and below its leads. -/
theorem EchelonForm.exists_reduced (hm : m.WellFormed) (he : m.EchelonForm) :
    ∃ r lead, Reduced m.variableCount r lead m.rows := by
  have h := hm.rectangular
  have hend : m.ZeroRow m.shape.rows := fun j _ => h.entryAt_of_rows_le le_rfl j
  classical
  -- the rows above the first zero row are the steps
  let r := Nat.find ⟨m.shape.rows, hend⟩
  have hzero : m.ZeroRow r := Nat.find_spec ⟨m.shape.rows, hend⟩
  have hr : r ≤ m.shape.rows := Nat.find_min' _ hend
  have hnonzero : ∀ i < r, ¬m.ZeroRow i := fun i hi => Nat.find_min _ hi
  choose! lead hlead using fun i (hi : i < r) => exists_leadsAt (hnonzero i hi)
  refine ⟨r, lead, ?_⟩
  constructor
  case toStaircase =>
    constructor
    case ascends =>
      -- neighbours ascend, so by induction on the lower row any two do
      intro i k hik hk
      induction k with
      | zero => omega
      | succ k ih =>
        have hstep := he.lead_right k _ _ (by omega) (hlead k (by omega)) (hlead (k + 1) hk)
        rcases Nat.lt_succ_iff_lt_or_eq.mp hik with hik | rfl
        · exact (ih hik (by omega)).trans hstep
        · exact hstep
    case lead_lt => exact fun i hi => (hlead i hi).1
    case lead_eq_one => exact fun i hi => he.lead_eq_one i _ (by omega) (hlead i hi)
    case before_lead => exact fun i hi => (hlead i hi).2.2
    case rest_eq_zero =>
      intro i hi
      by_contra hne
      have hin : i < m.shape.rows := by
        by_contra hin
        exact hne fun j _ => h.entryAt_of_rows_le (by omega) j
      exact absurd (he.zeroRow_below r i (by omega) hin hzero hne) (by omega)
  case above_lead =>
    exact fun k _ hk l hl => he.lead_alone k l _ (by omega) (by omega) hl.ne (hlead k hk)

/-- The scan decides the form. -/
theorem isReduced_eq_true_iff (hm : m.WellFormed) : m.isReduced = true ↔ m.EchelonForm := by
  rw [isReduced_iff_exists_reduced]
  exact ⟨fun ⟨_, _, hs⟩ => echelonForm_of_reduced hs, fun he => he.exists_reduced hm⟩

end RatMatrix

end ExactLinear
