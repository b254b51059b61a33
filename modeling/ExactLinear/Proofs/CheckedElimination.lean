import ExactLinear.Cramer
import ExactLinear.CrossProduct
import ExactLinear.Proofs.Determinant
import ExactLinear.Proofs.Reduction
import ExactLinear.Proofs.WellFormed
import ExactLinear.Proofs.Workspace

/-!
# Elimination with every check made

The eliminations divide by their pivots, act on rows and read entries without a look at what they
divide by and where they act and read. Here the same computations are written with all checks: an
entry is read where there is one, a multiple is a `quotient`, an inverse multiplies by a
`reciprocal`, and each row operation is performed by `apply`, on the rows that the one before it has
left. On well-formed matrices none of these checks ever fails (`triangular_eq`): the pivot is not
zero, the rows exist, and the rectangle is kept. A reduction makes its checks in a `Workspace`. So
the two eliminations have the same results and the same failures, and with them the solutions of
systems, the adjugate, the inverse, Cramer's rule and the cross product (`agrees`, `cross_eq`).
-/

namespace ExactLinear

open RatMatrix (entryAt)
open RowOp

namespace Checked

/-! ## The computations

Each is the definition of the same name, with its checks.
-/

/-- Clears column `c` in the target rows, one after the other, by means of the source row. -/
def clear (source c : ℕ) : List ℕ → List (List ℚ) → Except LinearError (List (List ℚ))
  | [], rows => .ok rows
  | k :: targets, rows => do
    let x ← entry rows k c
    if x = 0 then clear source c targets rows
    else do
      let multiple ← quotient x (← entry rows source c)
      let rows ← (RowOp.subtract k source multiple).apply rows
      clear source c targets rows

/-- Brings row `p` to row `j`, if it is not there already. -/
def exchange (p j : ℕ) (rows : List (List ℚ)) : Except LinearError (List (List ℚ)) :=
  if p = j then .ok rows else (RowOp.swap p j).apply rows

/-- Clears the given columns below the diagonal and tells whether the number of exchanges is odd. -/
def triangularRows : List ℕ → List (List ℚ) × Bool → Except LinearError (List (List ℚ) × Bool)
  | [], state => .ok state
  | j :: columns, (rows, odd) => do
    match ← pivotRow? rows j j with
    | none => triangularRows columns (rows, odd)
    | some p => do
      let swapped ← exchange p j rows
      let cleared ← clear j j (List.range' (j + 1) (rows.length - (j + 1))) swapped
      triangularRows columns (cleared, odd != (p != j))

def triangular (m : RatMatrix) : Except LinearError (RatMatrix × Bool) :=
  if m.isSquare then do
    let (rows, odd) ← triangularRows (List.range m.shape.rows) (m.rows, false)
    return ({ m with rows }, odd)
  else
    .error (.notSquare m.shape)

def diagonal (m : RatMatrix) : Except LinearError (List ℚ) :=
  (List.range m.shape.rows).mapM fun i => entry m.rows i i

def determinant (m : RatMatrix) : Except LinearError ℚ :=
  if m.augmented then
    .error (.notSquare m.shape)
  else do
    let (t, odd) ← triangular m
    let entries ← diagonal t
    return if odd then -RatMatrix.product entries else RatMatrix.product entries

def adjugate (m : RatMatrix) : Except LinearError RatMatrix :=
  if !m.isSquare then
    .error (.notSquare m.shape)
  else if m.shape.rows = 1 then
    RatMatrix.identity 1
  else do
    let n := m.shape.rows
    let rows ← (List.range n).mapM fun i => (List.range n).mapM fun j => do
      let d ← determinant (← m.minor j i)
      return RatMatrix.withSign (i + j) d
    RatMatrix.ofRows rows false

def inverse (m : RatMatrix) : Except LinearError RatMatrix.Inverse := do
  let d ← determinant (m.withAugmented false)
  if d = 0 then throw .singular
  let adj ← adjugate m
  let r ← reciprocal d
  return ⟨adj.scale r, adj, d⟩

def cramerStep (a : RatMatrix) (b : RatVector) (d : ℚ) (i : ℕ) :
    Except LinearError (ℚ × Transcript) := do
  let replaced ← a.withColumn i b
  let di ← determinant replaced
  let x ← quotient di d
  let index := toString (i + 1)
  return (x,
    [.matrix ("A_" ++ index) replaced,
      .note ("det(A_" ++ index ++ ") = " ++ Literal.write di),
      .note ("x_" ++ index ++ " = " ++ Literal.write di ++ " / " ++ Literal.write d ++ " = "
        ++ Literal.write x)])

def cramer (m : RatMatrix) : Except LinearError (Solution × Transcript) := do
  if !m.augmented then throw .notAugmented
  let a ← m.coefficients
  if m.shape.rows ≠ m.variableCount then throw (.notSquare a.shape)
  let b ← m.constants
  let d ← determinant a
  if d = 0 then throw .cramerNotApplicable
  let solved ← (List.range m.variableCount).mapM (cramerStep a b d)
  let solution := Solution.unique (solved.map (·.1))
  return (solution,
    [.matrix "A" a, .vector "b" b, .note ("det(A) = " ++ Literal.write d)]
      ++ solved.flatMap (·.2) ++ [.note ("Solution:\n" ++ solution.text)])

def cross (v : RatVector) (others : List RatVector) : Except LinearError RatVector :=
  let n := v.length
  match others.find? (·.length ≠ n) with
  | some bad => .error (.dimensionMismatch v.shape bad.shape)
  | none =>
    if n < 2 ∨ others.length + 1 ≠ n - 1 then
      .error (.dimensionMismatch ⟨others.length + 1, n⟩ ⟨n - 1, n⟩)
    else
      match v.entries with
      | [x, y] => RatVector.ofList [-y, x]
      | _ => do
        let operands ← RatMatrix.ofRows (v.entries :: others.map RatVector.entries) false
        let components ← (List.range n).mapM fun i => do
          let d ← determinant (← operands.withoutColumn i)
          return RatMatrix.withSign i d
        RatVector.ofList components

def solve (m : RatMatrix) : Except LinearError Solution :=
  if m.augmented then do
    let reduction ← reduce m
    classify m.variableCount reduction.matrix.rows
  else
    .error .notAugmented

/-! ## Triangular form -/

variable {n w : ℕ} {rows : List (List ℚ)} {m : RatMatrix}

theorem quotient_eq {a b : ℚ} (hb : b ≠ 0) : quotient a b = .ok (a / b) := if_neg hb

/-- One target after the other is cleared, as by the subtractions of the quotients that the entries
had before the first of them: a subtraction changes neither the source nor another target. -/
theorem clear_eq (h : Rectangular n w rows) {s c : ℕ} (hs : s < n) (hc : c < w)
    (hpivot : entryAt rows s c ≠ 0) {targets : List ℕ} (htargets : ∀ k ∈ targets, k < n ∧ k ≠ s)
    (hnodup : targets.Nodup) :
    clear s c targets rows = .ok (actAll rows
      (subtractions s (fun k => entryAt rows k c / entryAt rows s c) targets)) := by
  induction targets generalizing rows with
  | nil => rfl
  | cons k targets ih =>
    obtain ⟨⟨hk, hks⟩, hrest⟩ := List.forall_mem_cons.mp htargets
    obtain ⟨hnot, hnodup⟩ := List.nodup_cons.mp hnodup
    rw [clear, entry_eq h hk hc, subtractions, List.filterMap_cons]
    simp only [bind, Except.bind]
    by_cases hzero : entryAt rows k c = 0
    · rw [if_pos hzero, ih h hpivot hrest hnodup, hzero, zero_div, if_pos rfl, subtractions]
    · set op := RowOp.subtract k s (entryAt rows k c / entryAt rows s c) with hop
      have hgen : op.Genuine n := ⟨hk, hs, hks, div_ne_zero hzero hpivot⟩
      have hkept : ∀ i, i ≠ k → entryAt (act rows op) i c = entryAt rows i c := fun i hi => by
        rw [hop, entryAt_act_subtract h hk, if_neg hi]
      have hpivot' : entryAt (act rows op) s c ≠ 0 := by rwa [hkept s hks.symm]
      have hsame : subtractions s
          (fun i => entryAt (act rows op) i c / entryAt (act rows op) s c) targets =
            subtractions s (fun i => entryAt rows i c / entryAt rows s c) targets := by
        refine subtractions_congr fun i hi => ?_
        rw [hkept s hks.symm, hkept i (ne_of_mem_of_not_mem hi hnot)]
      rw [if_neg hzero, entry_eq h hs hc, if_neg (div_ne_zero hzero hpivot)]
      simp only [quotient_eq hpivot, ← hop, hgen.apply_eq h.length_eq]
      rw [ih (hgen.rectangular h) hpivot' hrest hnodup, hsame, actAll_cons, subtractions]

/-- The exchange that brings up a pivot is performed, and leaves the pivot on the diagonal. -/
theorem exchange_eq (h : Rectangular n w rows) {p j : ℕ} (hp : p < n) (hj : j < n)
    (hpivot : entryAt rows p j ≠ 0) :
    ∃ swapped, exchange p j rows = .ok swapped ∧
      (if p = j then rows else act rows (.swap p j)) = swapped ∧
      Rectangular n w swapped ∧ entryAt swapped j j ≠ 0 := by
  unfold exchange
  by_cases hpj : p = j
  · simp only [if_pos hpj]
    exact ⟨rows, rfl, rfl, h, hpj ▸ hpivot⟩
  · have hgen : (RowOp.swap p j).Genuine n := ⟨hp, hj, hpj⟩
    simp only [if_neg hpj]
    refine ⟨_, hgen.apply_eq h.length_eq, rfl, hgen.rectangular h, ?_⟩
    rwa [entryAt_act_swap (h.length_eq.symm ▸ hp) (h.length_eq.symm ▸ hj),
      Equiv.swap_apply_right]

theorem triangularRows_eq (h : Rectangular n w rows) {columns : List ℕ}
    (hcolumns : ∀ j ∈ columns, j < n ∧ j < w) (odd : Bool) :
    triangularRows columns (rows, odd) = .ok (RatMatrix.triangularRows columns (rows, odd)) := by
  induction columns generalizing rows odd with
  | nil => rfl
  | cons j columns ih =>
    obtain ⟨⟨hj, hjw⟩, hcolumns⟩ := List.forall_mem_cons.mp hcolumns
    rw [triangularRows, RatMatrix.triangularRows, pivotRow?_eq h hj hjw]
    cases hp : RatMatrix.pivotRow? rows j j with
    | none => exact ih h hcolumns odd
    | some p =>
      obtain ⟨-, hplt, hne⟩ := pivotRow?_spec hp
      rw [h.length_eq] at hplt
      obtain ⟨swapped, hexchange, hswapped, hrect, hpivot⟩ := exchange_eq h hplt hj hne
      have htargets : ∀ k ∈ List.range' (j + 1) (rows.length - (j + 1)), k < n ∧ k ≠ j :=
        fun k hk => ⟨(h.mem_rowsBelow_iff.mp hk).2, (h.mem_rowsBelow_iff.mp hk).1.ne'⟩
      have hlen : swapped.length = rows.length := hrect.length_eq.trans h.length_eq.symm
      have hclear := clear_eq hrect hj hjw hpivot htargets List.nodup_range'
      simp only [hswapped, clearBelow_eq_subtractions hpivot, hlen, hexchange, bind, Except.bind,
        hclear]
      exact ih ((allGenuine_subtractions hj _ htargets).rectangular hrect) hcolumns _

/-- The triangular form is computed without a failed check. -/
theorem triangular_eq (hm : m.WellFormed) : triangular m = m.triangular := by
  unfold triangular RatMatrix.triangular
  split_ifs with hsquare
  · have hcols : m.shape.rows = m.shape.cols := by simpa [RatMatrix.isSquare] using hsquare
    have hcolumns : ∀ j ∈ List.range m.shape.rows, j < m.shape.rows ∧ j < m.shape.cols :=
      fun j hj => ⟨List.mem_range.mp hj, hcols ▸ List.mem_range.mp hj⟩
    rw [triangularRows_eq hm.rectangular hcolumns]
    rfl
  · rfl

/-- The triangular form of a well-formed matrix is square rows again. -/
theorem rectangular_triangular (hm : m.WellFormed) :
    Yields (fun t => Rectangular t.1.shape.rows t.1.shape.rows t.1.rows) m.triangular := by
  by_cases hsquare : m.shape.rows = m.shape.cols
  · obtain ⟨⟨n, _⟩, rows, flag⟩ := m
    obtain rfl : n = _ := hsquare
    obtain ⟨rows', odd, htriangular, ht⟩ :=
      RatMatrix.triangularized_triangular hm.rectangular flag
    rw [htriangular]
    exact .ok ht.rectangular
  · rw [RatMatrix.triangular, if_neg (by simpa [RatMatrix.isSquare] using hsquare)]
    exact .error _

theorem diagonal_eq (h : Rectangular m.shape.rows m.shape.rows m.rows) :
    diagonal m = .ok m.diagonal :=
  mapM_eq_ok fun _ hi => entry_eq h (List.mem_range.mp hi) (List.mem_range.mp hi)

theorem determinant_eq (hm : m.WellFormed) : determinant m = m.determinant := by
  rw [determinant, RatMatrix.determinant, triangular_eq hm]
  refine if_congr Iff.rfl rfl ((rectangular_triangular hm).bind_congr ?_)
  rintro ⟨t, odd⟩ ht
  dsimp only
  rw [diagonal_eq ht]
  rfl

/-! ## Adjugate and inverse -/

theorem bind_determinant {x : Except LinearError RatMatrix} (hx : Yields RatMatrix.WellFormed x)
    (f : ℚ → Except LinearError ℚ) :
    (x >>= fun a => determinant a >>= f) = (x >>= fun a => a.determinant >>= f) :=
  hx.bind_congr fun a ha => by rw [determinant_eq ha]

theorem adjugate_eq (m : RatMatrix) : adjugate m = m.adjugate := by
  rw [adjugate]
  simp only [bind_determinant (RatMatrix.yields_minor _ _ _)]
  rfl

theorem inverse_eq (hm : m.WellFormed) : inverse m = m.inverse := by
  have hplain : (m.withAugmented false).WellFormed := hm
  rw [inverse, RatMatrix.inverse, determinant_eq hplain, adjugate_eq]
  refine bind_congr fun d => ?_
  by_cases hd : d = 0
  · simp only [if_pos hd]
    rfl
  · simp only [if_neg hd, reciprocal]
    rfl

/-! ## Cramer's rule and the cross product -/

theorem cramerStep_eq (hm : m.WellFormed) (b : RatVector) {d : ℚ} (hd : d ≠ 0) (i : ℕ) :
    cramerStep m b d i = RatMatrix.cramerStep m b d i := by
  unfold cramerStep RatMatrix.cramerStep
  refine (RatMatrix.yields_withColumn hm i b).bind_congr fun replaced hreplaced => ?_
  rw [determinant_eq hreplaced]
  refine bind_congr fun di => ?_
  rw [quotient_eq hd]
  rfl

/-- Cramer's rule divides by a determinant that it has compared with zero before. -/
theorem cramer_eq (m : RatMatrix) : cramer m = m.cramer := by
  unfold cramer RatMatrix.cramer
  dsimp only
  refine if_congr Iff.rfl rfl ?_
  refine (RatMatrix.yields_coefficients m).bind_congr fun a ha => ?_
  refine if_congr Iff.rfl rfl (bind_congr fun b => ?_)
  rw [determinant_eq ha]
  refine bind_congr fun d => ?_
  by_cases hd : d = 0
  · simp only [if_pos hd]
    rfl
  · simp only [if_neg hd, funext (cramerStep_eq ha b hd)]

theorem cross_eq (v : RatVector) (others : List RatVector) : cross v others = v.cross others := by
  rw [cross]
  simp only [bind_determinant (RatMatrix.yields_withoutColumn _ _)]
  rfl

/-! ## Systems -/

/-- A reduction keeps the rectangle, so the reduced rows can be read as those at the start. -/
theorem solve_eq (hm : m.WellFormed) : solve m = m.solve := by
  unfold solve RatMatrix.solve
  split_ifs with haug
  · have hrows : ∀ row ∈ m.reduce.matrix.rows, m.variableCount < row.length := by
      intro row hrow
      obtain ⟨hwf, hshape, -⟩ := RatMatrix.wellFormed_reduce hm
      rw [hwf.rectangular.row_length row hrow, hshape, hm.cols_eq haug]
      exact Nat.lt_succ_self _
    rw [reduce_eq hm]
    exact classify_eq hrows
  · rfl

/-! ## All computations -/

/-- Whatever is computed of the matrix comes to the same when every check is made. -/
structure Agrees (m : RatMatrix) : Prop where
  triangular : Checked.triangular m = m.triangular
  determinant : Checked.determinant m = m.determinant
  adjugate : Checked.adjugate m = m.adjugate
  inverse : Checked.inverse m = m.inverse
  cramer : Checked.cramer m = m.cramer
  reduce : Checked.reduce m = .ok m.reduce
  solve : Checked.solve m = m.solve
  residual : ∀ values, Checked.residual m values = m.residual values

theorem agrees (hm : m.WellFormed) : Agrees m :=
  ⟨triangular_eq hm, determinant_eq hm, adjugate_eq m, inverse_eq hm, cramer_eq m, reduce_eq hm,
    solve_eq hm, residual_eq hm⟩

end Checked

end ExactLinear
