import ExactLinear.System
import ExactLinear.Proofs.Computation
import ExactLinear.Proofs.Staircase

/-!
# Reading within the rows

The definitions read entries through `entryAt` and `getD`, which are zero outside of the rows. Here
the same reads are written with the check that the entry is there. In a rectangle it is, where the
row and the column are (`entry_eq`), so that the search for a pivot, the scan for the reduced form,
the classification of a reduced system and the residual of an assignment read within the rows only
(`pivotRow?_eq`, `isReduced_eq`, `classify_eq`, `residual_eq`).
-/

namespace ExactLinear

open RatMatrix (entryAt)

/-- When every step succeeds from what the steps before it have led to, so does the loop. -/
theorem foldlM_eq_ok {ε α β : Type} {P : β → Prop} {f : β → α → Except ε β} {g : β → α → β}
    {l : List α} (h : ∀ b, P b → ∀ a ∈ l, f b a = .ok (g b a) ∧ P (g b a)) {b : β} (hb : P b) :
    l.foldlM f b = .ok (l.foldl g b) := by
  induction l generalizing b with
  | nil => rfl
  | cons a l ih =>
    obtain ⟨hstep, hnext⟩ := h b hb a List.mem_cons_self
    rw [List.foldlM_cons, hstep]
    exact ih (fun b hb a ha => h b hb a (List.mem_cons_of_mem _ ha)) hnext

/-- When every step succeeds, so does the loop. -/
theorem mapM_eq_ok {ε α β : Type} {f : α → Except ε β} {g : α → β} {l : List α}
    (h : ∀ a ∈ l, f a = .ok (g a)) : l.mapM f = .ok (l.map g) :=
  mapM_eq_ok_iff.mpr (List.forall₂_map_right_iff.mpr (List.forall₂_same.mpr h))

namespace Checked

/-! ## The reads -/

/-- The entry of a row in column `j`, if the row reaches that far. -/
def cell (row : List ℚ) (j : ℕ) : Except LinearError ℚ :=
  match row[j]? with
  | some x => .ok x
  | none => .error (.indexOutOfRange 0 j ⟨1, row.length⟩)

/-- Row `i`, if it exists. -/
def line (rows : List (List ℚ)) (i : ℕ) : Except LinearError (List ℚ) :=
  match rows[i]? with
  | some row => .ok row
  | none => .error (.indexOutOfRange i 0 ⟨rows.length, (rows.headD []).length⟩)

/-- The entry in row `i` and column `j`, if the rows have it. -/
def entry (rows : List (List ℚ)) (i j : ℕ) : Except LinearError ℚ := do
  cell (← line rows i) j

/-- The first entries of a row, if there are as many. -/
def front (vars : ℕ) (row : List ℚ) : Except LinearError (List ℚ) :=
  if vars ≤ row.length then .ok (row.take vars)
  else .error (.indexOutOfRange 0 vars ⟨1, row.length⟩)

variable {n w vars : ℕ} {row : List ℚ} {rows : List (List ℚ)}

theorem cell_eq {j : ℕ} (hj : j < row.length) : cell row j = .ok (row.getD j 0) := by
  rw [cell, List.getElem?_eq_getElem hj, List.getD_eq_getElem _ _ hj]

theorem front_eq (h : vars ≤ row.length) : front vars row = .ok (row.take vars) := if_pos h

theorem line_eq (h : Rectangular n w rows) {i : ℕ} (hi : i < n) :
    line rows i = .ok (rows.getD i []) := by
  have hlen : i < rows.length := h.length_eq.symm ▸ hi
  rw [line, List.getElem?_eq_getElem hlen, List.getD_eq_getElem _ _ hlen]

/-- In a rectangle every row and every column that there are have an entry in common. -/
theorem entry_eq (h : Rectangular n w rows) {i j : ℕ} (hi : i < n) (hj : j < w) :
    entry rows i j = .ok (entryAt rows i j) := by
  rw [entry, line_eq h hi]
  exact cell_eq ((h.length_getD hi).symm ▸ hj)

/-! ## The computations

Each is the definition of the same name, with its reads checked.
-/

/-- The row with the larger entry in column `j`, and the first of two rows that are equal there. -/
def larger (rows : List (List ℚ)) (j p i : ℕ) : Except LinearError ℕ := do
  let x ← entry rows i j
  let y ← entry rows p j
  return if y.abs < x.abs then i else p

def pivotRow? (rows : List (List ℚ)) (r j : ℕ) : Except LinearError (Option ℕ) := do
  let best ← (List.range' (r + 1) (rows.length - (r + 1))).foldlM (larger rows j) r
  let x ← entry rows best j
  return if x = 0 then none else some best

def lead? (vars : ℕ) (row : List ℚ) : Except LinearError (Option ℕ) :=
  (front vars row).map leadingIndex?

def isUnitColumn (rows : List (List ℚ)) (c : ℕ) : Except LinearError Bool := do
  let column ← rows.mapM (cell · c)
  return column.countP (· ≠ 0) = 1

/-- Reads all that the scan may read, also where it has been decided before. -/
def leadsAscend (vars : ℕ) (all : List (List ℚ)) (least : ℕ) :
    List (List ℚ) → Except LinearError Bool
  | [] => .ok true
  | row :: rest => do
    match ← lead? vars row with
    | none =>
      let leads ← rest.mapM (lead? vars)
      return leads.all (·.isNone)
    | some c =>
      let x ← cell row c
      let unit ← isUnitColumn all c
      let ascend ← leadsAscend vars all (c + 1) rest
      return least ≤ c && x = 1 && unit && ascend

def isReduced (m : RatMatrix) : Except LinearError Bool :=
  leadsAscend m.variableCount m.rows 0 m.rows

/-- The first contradiction among rows of which the first has the number `i`. -/
def contradiction? (vars : ℕ) : ℕ → List (List ℚ) → Except LinearError (Option (ℕ × ℚ))
  | _, [] => .ok none
  | i, row :: rows => do
    match ← lead? vars row with
    | some _ => contradiction? vars (i + 1) rows
    | none =>
      let x ← cell row vars
      if x = 0 then contradiction? vars (i + 1) rows else return some (i, x)

def leadingRows (vars : ℕ) (rows : List (List ℚ)) : Except LinearError (List (ℕ × List ℚ)) := do
  let leads ← rows.mapM fun row => (lead? vars row).map fun lead => lead.map (·, row)
  return leads.filterMap id

def ofRow (vars : ℕ) (free : List ℕ) (c : ℕ) (row : List ℚ) : Except LinearError AffineExpr := do
  let constant ← cell row vars
  let terms ← free.mapM fun k =>
    if c < k then (cell row k).map fun x => if x = 0 then none else some (k, -x) else .ok none
  return ⟨constant, terms.filterMap id⟩

def classify (vars : ℕ) (rows : List (List ℚ)) : Except LinearError Solution := do
  match ← contradiction? vars 0 rows with
  | some (row, constant) => return .inconsistent row constant
  | none =>
    let basic ← leadingRows vars rows
    let free := (List.range vars).filter fun j => basic.all (·.1 ≠ j)
    if free.isEmpty then
      let values ← (List.range vars).mapM fun j =>
        match basic.find? (·.1 = j) with
        | some (_, row) => cell row vars
        | none => .ok 0
      return .unique values
    else
      let expressions ← basic.mapM fun (c, row) => (ofRow vars free c row).map (c, ·)
      return .infinite free expressions

def residual (m : RatMatrix) (values : List ℚ) : Except LinearError (List ℚ) :=
  let vars := m.variableCount
  if !m.augmented then
    .error .notAugmented
  else if values.length ≠ vars then
    .error (.dimensionMismatch m.shape (.column values.length))
  else
    m.rows.mapM fun row => do
      let coefficients ← front vars row
      let constant ← cell row vars
      return dotProduct coefficients values - constant

/-! ## The search for a pivot -/

/-- The candidates are rows that there are. -/
theorem pivotRow?_eq (h : Rectangular n w rows) {r j : ℕ} (hr : r < n) (hj : j < w) :
    pivotRow? rows r j = .ok (RatMatrix.pivotRow? rows r j) := by
  let keep (p i : ℕ) : ℕ := if (entryAt rows p j).abs < (entryAt rows i j).abs then i else p
  have hstep : ∀ p, p < n → ∀ i ∈ List.range' (r + 1) (rows.length - (r + 1)),
      larger rows j p i = .ok (keep p i) ∧ keep p i < n := by
    intro p hp i hi
    have hin : i < n := (h.mem_rowsBelow_iff.mp hi).2
    rw [larger, entry_eq h hin hj, entry_eq h hp hj]
    refine ⟨rfl, ?_⟩
    dsimp only [keep]
    split_ifs
    · exact hin
    · exact hp
  have hbest : (List.range' (r + 1) (rows.length - (r + 1))).foldl keep r < n := by
    have hmem := (foldl_argmax (fun i => (entryAt rows i j).abs) r
      (List.range' (r + 1) (rows.length - (r + 1)))).1
    rw [List.mem_cons, h.mem_rowsBelow_iff] at hmem
    rcases hmem with heq | hbelow
    · exact heq.trans_lt hr
    · exact hbelow.2
  rw [pivotRow?, foldlM_eq_ok hstep hr]
  show (entry rows ((List.range' (r + 1) (rows.length - (r + 1))).foldl keep r) j >>= _) = _
  rw [entry_eq h hbest hj]
  rfl

/-! ## The scan for the reduced form -/

theorem lead?_eq (h : vars ≤ row.length) : lead? vars row = .ok (RatMatrix.lead? vars row) := by
  rw [lead?, front_eq h]
  rfl

theorem isUnitColumn_eq (h : Rectangular n w rows) {c : ℕ} (hc : c < w) :
    isUnitColumn rows c = .ok (RatMatrix.isUnitColumn rows c) := by
  have hcells : rows.mapM (cell · c) = .ok (rows.map (·.getD c 0)) :=
    mapM_eq_ok fun row hrow => cell_eq (h.row_length row hrow ▸ hc)
  rw [isUnitColumn, hcells, RatMatrix.isUnitColumn]
  simp only [bind, Except.bind, pure, Except.pure, List.countP_map]
  rfl

theorem leadsAscend_eq {all : List (List ℚ)} (hall : Rectangular n w all) (hvars : vars ≤ w)
    (hrows : ∀ row ∈ rows, row.length = w) (least : ℕ) :
    leadsAscend vars all least rows = .ok (RatMatrix.leadsAscend vars all least rows) := by
  induction rows generalizing least with
  | nil => rfl
  | cons row rest ih =>
    obtain ⟨hrow, hrest⟩ := List.forall_mem_cons.mp hrows
    have hlead : ∀ r ∈ rest, lead? vars r = .ok (RatMatrix.lead? vars r) :=
      fun r hr => lead?_eq (hrest r hr ▸ hvars)
    rw [leadsAscend, RatMatrix.leadsAscend, lead?_eq (hrow ▸ hvars)]
    cases hc : RatMatrix.lead? vars row with
    | none =>
      simp only [bind, Except.bind, mapM_eq_ok hlead, pure, Except.pure, List.all_map]
      rfl
    | some c =>
      have hcw : c < w := (lead?_eq_some_iff.mp hc).1.trans_le hvars
      simp only [bind, Except.bind, cell_eq (hrow ▸ hcw), isUnitColumn_eq hall hcw, ih hrest]
      rfl

theorem variableCount_le (m : RatMatrix) : m.variableCount ≤ m.shape.cols := by
  unfold RatMatrix.variableCount
  split_ifs <;> omega

/-- The scan reads within the rows. -/
theorem isReduced_eq {m : RatMatrix} (hm : m.WellFormed) : isReduced m = .ok m.isReduced :=
  leadsAscend_eq hm.rectangular (variableCount_le m) hm.rectangular.row_length 0

/-! ## The solutions of a reduced system -/

theorem contradiction?_eq (hrows : ∀ row ∈ rows, vars < row.length) (i : ℕ) :
    contradiction? vars i rows =
      .ok ((RatMatrix.contradiction? vars rows).map fun (k, x) => (i + k, x)) := by
  induction rows generalizing i with
  | nil => rfl
  | cons row rows ih =>
    obtain ⟨hrow, hrows⟩ := List.forall_mem_cons.mp hrows
    -- a row that is passed over adds one to the numbers of the rows after it
    have hnext : contradiction? vars (i + 1) rows =
        .ok ((((rows.findIdx? fun row =>
          (RatMatrix.lead? vars row).isNone && row.getD vars 0 ≠ 0).map (· + 1)).map
            fun k => (k, entryAt (row :: rows) k vars)).map fun (k, x) => (i + k, x)) := by
      rw [ih hrows, RatMatrix.contradiction?, Option.map_map, Option.map_map, Option.map_map]
      refine congrArg Except.ok (congrArg (Option.map · _) (funext fun k => ?_))
      exact Prod.ext (Nat.add_right_comm i 1 k) rfl
    rw [contradiction?, lead?_eq hrow.le, RatMatrix.contradiction?, List.findIdx?_cons]
    cases hlead : RatMatrix.lead? vars row with
    | some c =>
      simp only [bind, Except.bind, hnext]
      rfl
    | none =>
      simp only [bind, Except.bind, cell_eq hrow, hnext]
      by_cases hzero : row.getD vars 0 = 0
      · simp only [hzero, Option.isNone_none, ne_eq, not_true_eq_false, decide_false,
          Bool.and_false, if_true, Bool.false_eq_true, if_false]
      · simp only [hzero, Option.isNone_none, ne_eq, not_false_eq_true, decide_true,
          Bool.and_true, if_true, if_false]
        rfl

theorem leadingRows_eq (hrows : ∀ row ∈ rows, vars ≤ row.length) :
    leadingRows vars rows = .ok (RatMatrix.leadingRows vars rows) := by
  have hleads : ∀ row ∈ rows, ((lead? vars row).map fun lead => lead.map (·, row)) =
      .ok ((RatMatrix.lead? vars row).map (·, row)) := fun row hrow => by
    rw [lead?_eq (hrows row hrow)]
    rfl
  rw [leadingRows, mapM_eq_ok hleads, RatMatrix.leadingRows]
  simp only [bind, Except.bind, pure, Except.pure, List.filterMap_map]
  rfl

theorem ofRow_eq {free : List ℕ} (hfree : ∀ k ∈ free, k < vars) (hrow : vars < row.length) (c : ℕ) :
    ofRow vars free c row = .ok (AffineExpr.ofRow vars free c row) := by
  have hterms : ∀ k ∈ free, (if c < k then
      (cell row k).map fun x => if x = 0 then none else some (k, -x) else .ok none) =
        .ok (if c < k ∧ row.getD k 0 ≠ 0 then some (k, -row.getD k 0) else none) := by
    intro k hk
    rw [cell_eq ((hfree k hk).trans hrow), Except.map]
    by_cases hck : c < k
    · by_cases hzero : row.getD k 0 = 0
      · rw [if_pos hck, if_pos hzero, if_neg fun h => h.2 hzero]
      · rw [if_pos hck, if_neg hzero, if_pos ⟨hck, hzero⟩]
    · rw [if_neg hck, if_neg fun h => hck h.1]
  rw [ofRow, cell_eq hrow, mapM_eq_ok hterms, AffineExpr.ofRow]
  simp only [bind, Except.bind, pure, Except.pure, List.filterMap_map]
  rfl

/-- The solutions of a reduced system are read off entries that are there. -/
theorem classify_eq (hrows : ∀ row ∈ rows, vars < row.length) :
    classify vars rows = .ok (RatMatrix.classify vars rows) := by
  have hleading := leadingRows_eq fun row hrow => (hrows row hrow).le
  have hmem : ∀ pair ∈ RatMatrix.leadingRows vars rows, vars < pair.2.length := by
    intro pair hpair
    obtain ⟨row, hrow, heq⟩ := List.mem_filterMap.mp hpair
    obtain ⟨c, -, rfl⟩ := Option.map_eq_some_iff.mp heq
    exact hrows row hrow
  rw [classify, contradiction?_eq hrows, RatMatrix.classify]
  cases hfind : RatMatrix.contradiction? vars rows with
  | some found =>
    obtain ⟨k, x⟩ := found
    simp only [Option.map_some, Nat.zero_add]
    rfl
  | none =>
    have hvalues : ∀ j ∈ List.range vars,
        (match (RatMatrix.leadingRows vars rows).find? (·.1 = j) with
          | some (_, row) => cell row vars
          | none => .ok 0) =
        .ok (match (RatMatrix.leadingRows vars rows).find? (·.1 = j) with
          | some (_, row) => row.getD vars 0
          | none => 0) := by
      intro j _
      cases hlead : (RatMatrix.leadingRows vars rows).find? (·.1 = j) with
      | none => rfl
      | some pair => exact cell_eq (hmem pair (List.mem_of_find?_eq_some hlead))
    have hexpressions : ∀ free : List ℕ, (∀ k ∈ free, k < vars) →
        ∀ pair ∈ RatMatrix.leadingRows vars rows,
          (ofRow vars free pair.1 pair.2).map (pair.1, ·) =
            .ok (pair.1, AffineExpr.ofRow vars free pair.1 pair.2) := by
      intro free hfree pair hpair
      rw [ofRow_eq hfree (hmem pair hpair)]
      rfl
    simp only [Option.map_none, bind, Except.bind, hleading]
    split_ifs
    · rw [mapM_eq_ok hvalues]
      rfl
    · rw [mapM_eq_ok (hexpressions _ fun k hk => List.mem_range.mp (List.mem_of_mem_filter hk))]
      rfl

/-- The residual of an assignment is computed of entries that are there. -/
theorem residual_eq {m : RatMatrix} (hm : m.WellFormed) (values : List ℚ) :
    residual m values = m.residual values := by
  unfold residual RatMatrix.residual
  dsimp only
  split_ifs with haug hlen
  · rfl
  · rfl
  · refine mapM_eq_ok fun row hrow => ?_
    have hlt : m.variableCount < row.length := by
      rw [hm.rectangular.row_length row hrow, hm.cols_eq (by simpa using haug)]
      exact Nat.lt_succ_self _
    rw [front_eq hlt.le, cell_eq hlt]
    rfl

end Checked

end ExactLinear
