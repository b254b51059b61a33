import ExactLinear.Proofs.CheckedElimination
import ExactLinear.Proofs.CramersRule

/-!
# How Cramer's rule fails

On every matrix `cramer` either succeeds or fails with one of the causes that are its own: the
matrix is not augmented, it has not as many rows as variables, or the determinant of its
coefficients is zero. None of the computations on the way adds a failure, with one exception. A
system whose only column is that of the constants has no coefficients to measure, so it is refused
as a matrix without entries and not as one that is not square (`cramer_eq_empty`).
-/

namespace ExactLinear.RatMatrix

variable {m : RatMatrix}

theorem cramer_eq_notAugmented (hplain : m.augmented = false) :
    m.cramer = .error .notAugmented := by
  rw [cramer, hplain]
  rfl

/-- Beyond the check of the flag, the first failure is that of the coefficients. -/
theorem cramer_eq_error_of_coefficients (haug : m.augmented = true) {e : LinearError}
    (he : m.coefficients = .error e) : m.cramer = .error e := by
  rw [cramer, haug, he]
  rfl

/-- A system that has not as many rows as variables has the shape of its coefficients in the
message. -/
theorem cramer_eq_notSquare (hm : m.WellFormed) (haug : m.augmented = true)
    (hrows : m.shape.rows ≠ m.variableCount) (hvars : 0 < m.variableCount) :
    m.cramer = .error (.notSquare ⟨m.shape.rows, m.variableCount⟩) := by
  have hshape : m.shape = ⟨m.shape.rows, m.variableCount + 1⟩ := by rw [← hm.cols_eq haug]
  obtain ⟨a, ha, hrepr, -⟩ :=
    (hm.represents_of_shape_eq hshape).coefficients haug hm.1 hvars
  rw [cramer, haug, ha]
  simp only [bind, Except.bind, if_pos hrows, hrepr.shape_eq]
  rfl

/-- A system without variables has no coefficients. -/
theorem cramer_eq_empty (hm : m.WellFormed) (haug : m.augmented = true)
    (hvars : m.variableCount = 0) : m.cramer = .error .empty := by
  refine cramer_eq_error_of_coefficients haug ?_
  have hcols : m.shape.cols = 1 := by rw [hm.cols_eq haug, hvars]
  obtain ⟨row, rows, hcons⟩ := List.exists_cons_of_ne_nil
    (List.ne_nil_of_length_pos (hm.2.2.1.symm ▸ hm.1))
  have hrow : row.eraseIdx 0 = [] := by
    have hlen := hm.2.2.2 row (hcons ▸ List.mem_cons_self)
    rw [← List.length_eq_zero_iff, List.length_eraseIdx, hlen, hcols]
    rfl
  rw [coefficients, if_pos haug, withoutColumn, hcols, hcons, List.map_cons, hrow]
  rfl

/-- A square system is solved, or its coefficients have determinant zero. -/
theorem SquareSystem.cramer_eq_iff {n : ℕ} (h : m.SquareSystem n) :
    ∃ a d, m.coefficients = .ok a ∧ a.determinant = .ok d ∧ d = (grid n n m.rows).det ∧
      (d = 0 ∧ m.cramer = .error .cramerNotApplicable ∨
        d ≠ 0 ∧ ∃ values t, m.cramer = .ok (.unique values, t)) := by
  obtain ⟨rows, hcoeff, hrect, hgrid⟩ := h.coefficients_eq
  obtain ⟨t, hcramer⟩ := h.cramer_eq
  refine ⟨_, _, hcoeff, determinant_eq_det hrect, by rw [hgrid], ?_⟩
  rw [hgrid, hcramer]
  by_cases hdet : (grid n n m.rows).det = 0
  · exact .inl ⟨hdet, if_pos hdet⟩
  · exact .inr ⟨hdet, _, t, if_neg hdet⟩

/-- Every failure has one of four causes. -/
theorem cramer_error_cases (hm : m.WellFormed) {e : LinearError} (he : m.cramer = .error e) :
    m.augmented = false ∧ e = .notAugmented ∨
      e = .notSquare ⟨m.shape.rows, m.variableCount⟩ ∨ e = .cramerNotApplicable ∨
      m.variableCount = 0 ∧ e = .empty := by
  cases haug : m.augmented with
  | false => exact .inl ⟨rfl, Except.error.inj (he.symm.trans (cramer_eq_notAugmented haug))⟩
  | true =>
    refine .inr ?_
    by_cases hrows : m.shape.rows = m.variableCount
    · obtain ⟨_, _, -, -, -, ⟨-, hcramer⟩ | ⟨-, values, t, hcramer⟩⟩ :=
        (squareSystem_of_rows_eq hm haug hrows).cramer_eq_iff
      · exact .inr (.inl (Except.error.inj (he.symm.trans hcramer)))
      · cases he.symm.trans hcramer
    · rcases Nat.eq_zero_or_pos m.variableCount with hvars | hvars
      · have hcramer := cramer_eq_empty hm haug hvars
        exact .inr (.inr ⟨hvars, Except.error.inj (he.symm.trans hcramer)⟩)
      · have hcramer := cramer_eq_notSquare hm haug hrows hvars
        exact .inl (Except.error.inj (he.symm.trans hcramer))

/-- **The failures of Cramer's rule.** It fails because the matrix is not augmented exactly if it is
not. An augmented matrix with another number of rows than of variables is refused as not square,
with these two numbers, or as empty if there are no variables. With as many rows as variables the
rule does not apply exactly if the determinant of the coefficients is zero, and finds values
otherwise. There is no other failure, also when every division and every row operation on the way is
checked. -/
theorem cramer_failures (m : RatMatrix) (hm : m.WellFormed) :
    (m.cramer = .error .notAugmented ↔ m.augmented = false) ∧
    (m.augmented = true → m.shape.rows ≠ m.variableCount → 0 < m.variableCount →
      m.cramer = .error (.notSquare ⟨m.shape.rows, m.variableCount⟩)) ∧
    (m.augmented = true → m.variableCount = 0 → m.cramer = .error .empty) ∧
    (m.augmented = true → m.shape.rows = m.variableCount →
      ∃ a d, m.coefficients = .ok a ∧ a.determinant = .ok d ∧
        d = (grid m.shape.rows m.shape.rows m.rows).det ∧
        (m.cramer = .error .cramerNotApplicable ↔ d = 0) ∧
        (d ≠ 0 → ∃ values t, m.cramer = .ok (.unique values, t))) ∧
    (∀ e, m.cramer = .error e → e = .notAugmented ∨
      e = .notSquare ⟨m.shape.rows, m.variableCount⟩ ∨ e = .cramerNotApplicable ∨
      m.variableCount = 0 ∧ e = .empty) ∧
    Checked.cramer m = m.cramer := by
  refine ⟨⟨fun he => ?_, cramer_eq_notAugmented⟩, cramer_eq_notSquare hm, cramer_eq_empty hm,
    fun haug hrows => ?_, fun e he => (cramer_error_cases hm he).imp_left And.right,
    Checked.cramer_eq m⟩
  · obtain ⟨hplain, -⟩ | h | h | ⟨-, h⟩ := cramer_error_cases hm he
    · exact hplain
    all_goals cases h
  · obtain ⟨a, d, hcoeff, hd, hdet, ⟨hzero, hcramer⟩ | ⟨hne, hcramer⟩⟩ :=
      (squareSystem_of_rows_eq hm haug hrows).cramer_eq_iff
    · exact ⟨a, d, hcoeff, hd, hdet, iff_of_true hcramer hzero, fun hne => absurd hzero hne⟩
    · refine ⟨a, d, hcoeff, hd, hdet, iff_of_false (fun he => ?_) hne, fun _ => hcramer⟩
      obtain ⟨values, t, hvalues⟩ := hcramer
      cases he.symm.trans hvalues

/-- Two equations in three variables are not square, and equal equations do not determine their
variables. -/
theorem cramer_failures_of_small_systems :
    (⟨⟨2, 4⟩, [[1, 2, 3, 4], [5, 6, 7, 8]], true⟩ : RatMatrix).cramer =
        .error (.notSquare ⟨2, 3⟩) ∧
      (⟨⟨2, 3⟩, [[1, 1, 2], [1, 1, 5]], true⟩ : RatMatrix).cramer =
        .error .cramerNotApplicable := by
  obtain ⟨-, hsquare, -⟩ :=
    cramer_failures ⟨⟨2, 4⟩, [[1, 2, 3, 4], [5, 6, 7, 8]], true⟩ (by decide)
  obtain ⟨-, -, -, hdet, -⟩ := cramer_failures ⟨⟨2, 3⟩, [[1, 1, 2], [1, 1, 5]], true⟩ (by decide)
  obtain ⟨a, d, hcoeff, hd, -, hiff, -⟩ := hdet rfl rfl
  have ha : a = ⟨⟨2, 2⟩, [[1, 1], [1, 1]], false⟩ :=
    Except.ok.inj (hcoeff.symm.trans (by decide +kernel))
  subst ha
  have hzero : d = 0 := Except.ok.inj (hd.symm.trans (by decide +kernel))
  exact ⟨hsquare rfl (by decide) (by decide), hiff.mpr hzero⟩

/-- A system whose only column holds its constants is not refused as a matrix with one row and no
column. -/
theorem cramer_ne_notSquare_of_constants :
    ∃ m : RatMatrix, m = ⟨⟨1, 1⟩, [[1]], true⟩ ∧ m.WellFormed ∧ m.augmented = true ∧
      m.shape.rows ≠ m.variableCount ∧ m.cramer ≠ .error (.notSquare ⟨1, 0⟩) ∧
      m.cramer = .error .empty := by
  refine ⟨_, rfl, ?_⟩
  decide +kernel

end ExactLinear.RatMatrix
