import ExactLinear.Proofs.EchelonForm

/-!
# Every reduction ends in reduced row-echelon form

The operations that `reduce` logs are genuine, so none of them is refused when it is performed, and
the reduced matrix is what they make of the rows. Its rows are a staircase with zeros above and
below the leads. A matrix is left alone exactly when it has the form, so a second reduction changes
nothing.
-/

namespace ExactLinear.RatMatrix

open RowOp

variable {m : RatMatrix}

/-- The steps of a reduction log its operations. -/
theorem operations_steps (m : RatMatrix) (ops : List RowOp) :
    (Reduction.steps m ops).operations = ops := by
  induction ops generalizing m with
  | nil => rfl
  | cons op ops ih =>
    simp only [Reduction.steps, Transcript.operations, List.filterMap_cons]
    exact congrArg (op :: ·) (ih _)

/-- A matrix that is not reduced yet logs the operations of its elimination. -/
theorem operations_reduce (hred : ¬m.isReduced = true) :
    m.reduce.transcript.operations = Reduction.operations m := by
  rw [reduce, if_neg hred]
  simp only [Transcript.operations, List.cons_append, List.filterMap_cons, List.filterMap_append,
    List.filterMap_nil, List.append_nil]
  exact operations_steps m _

/-- The operations that a reduction logs are genuine, and make its matrix of the rows. -/
theorem reduce_eq (hm : m.WellFormed) :
    AllGenuine m.shape.rows m.reduce.transcript.operations ∧
      m.reduce.matrix = { m with rows := actAll m.rows m.reduce.transcript.operations } := by
  by_cases hred : m.isReduced = true
  · rw [reduce, if_pos hred]
    exact ⟨AllGenuine.nil _, rfl⟩
  · rw [operations_reduce hred]
    refine ⟨(operations_spec hm).1, ?_⟩
    rw [reduce, if_neg hred]

/-- A reduction leaves a staircase with zeros above and below its leads. -/
theorem reduced_reduce (hm : m.WellFormed) :
    ∃ r lead, Reduced m.variableCount r lead m.reduce.matrix.rows := by
  by_cases hred : m.isReduced = true
  · rw [reduce, if_pos hred]
    exact isReduced_iff_exists_reduced.mp hred
  · rw [reduce, if_neg hred]
    exact (operations_spec hm).2

/-- A reduction keeps the shape, the flag and the rectangle. -/
theorem wellFormed_reduce (hm : m.WellFormed) :
    m.reduce.matrix.WellFormed ∧ m.reduce.matrix.shape = m.shape ∧
      m.reduce.matrix.augmented = m.augmented := by
  obtain ⟨hgen, heq⟩ := reduce_eq hm
  have hrect := hgen.rectangular hm.rectangular
  rw [heq]
  exact ⟨⟨hm.1, hm.2.1, hrect.length_eq, hrect.row_length⟩, rfl, rfl⟩

theorem variableCount_reduce (hm : m.WellFormed) :
    m.reduce.matrix.variableCount = m.variableCount := by
  obtain ⟨-, hshape, haug⟩ := wellFormed_reduce hm
  rw [variableCount, hshape, haug, variableCount]

/-- A reduced matrix has the form. -/
theorem echelonForm_reduce (hm : m.WellFormed) : m.reduce.matrix.EchelonForm := by
  obtain ⟨r, lead, hs⟩ := reduced_reduce hm
  rw [← variableCount_reduce hm] at hs
  exact echelonForm_of_reduced hs

/-- The transcript of a reduction is replayed without a failure, also when it is broken off, and to
the end it leads to the reduced matrix. -/
theorem replay_reduce (hm : m.WellFormed) :
    (∀ t : Transcript, t <+: m.reduce.transcript → ∃ s, t.replay m = .ok s) ∧
      m.reduce.transcript.replay m = .ok m.reduce.matrix := by
  obtain ⟨hgen, heq⟩ := reduce_eq hm
  refine ⟨fun t ht => ⟨_, Transcript.replay_eq hm fun op hop => hgen op ?_⟩, ?_⟩
  · -- the operations of a part are among those of the whole
    exact (ht.sublist.filterMap _).subset hop
  · rw [Transcript.replay_eq hm hgen, ← heq]

/-- **Reduction brings every matrix to reduced row-echelon form.** None of its steps is refused; the
shape and the flag stay; the scan of `isReduced` decides the form; and the matrices that have it
already are those that a reduction leaves alone. -/
theorem reduce_reaches_echelonForm (m : RatMatrix) (hm : m.WellFormed) :
    ((∀ t : Transcript, t <+: m.reduce.transcript → ∃ s, t.replay m = .ok s) ∧
      m.reduce.transcript.replay m = .ok m.reduce.matrix) ∧
    (m.reduce.matrix.WellFormed ∧ m.reduce.matrix.shape = m.shape ∧
      m.reduce.matrix.augmented = m.augmented) ∧
    m.reduce.matrix.EchelonForm ∧
    (m.isReduced = true ↔ m.EchelonForm) ∧
    (m.reduce.matrix = m ↔ m.isReduced = true) ∧
    m.reduce.matrix.reduce.matrix = m.reduce.matrix := by
  have hkeep : ∀ a : RatMatrix, a.isReduced = true → a.reduce.matrix = a := by
    intro a ha
    rw [reduce, if_pos ha]
  have hwf := wellFormed_reduce hm
  have hred : m.reduce.matrix.isReduced = true :=
    (isReduced_eq_true_iff hwf.1).mpr (echelonForm_reduce hm)
  refine ⟨replay_reduce hm, hwf, echelonForm_reduce hm, isReduced_eq_true_iff hm, ?_, hkeep _ hred⟩
  exact ⟨fun heq => heq ▸ hred, hkeep m⟩

/-- A system whose first row has to be exchanged before it is reduced. -/
theorem reduce_reaches_echelonForm_of_exchange :
    (⟨⟨2, 3⟩, [[0, 2, 4], [1, 1, 1]], true⟩ : RatMatrix).reduce.matrix =
        ⟨⟨2, 3⟩, [[1, 0, -1], [0, 1, 2]], true⟩ ∧
      (⟨⟨2, 3⟩, [[0, 2, 4], [1, 1, 1]], true⟩ : RatMatrix).reduce.matrix.EchelonForm ∧
      ¬(⟨⟨2, 3⟩, [[0, 2, 4], [1, 1, 1]], true⟩ : RatMatrix).EchelonForm := by
  obtain ⟨-, -, hform, hscan, -⟩ :=
    reduce_reaches_echelonForm ⟨⟨2, 3⟩, [[0, 2, 4], [1, 1, 1]], true⟩ (by decide)
  exact ⟨by decide +kernel, hform, fun hself => absurd (hscan.mpr hself) (by decide +kernel)⟩

end ExactLinear.RatMatrix
