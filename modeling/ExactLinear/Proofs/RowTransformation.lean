import ExactLinear.Proofs.Reduction
import ExactLinear.Proofs.Representation

/-!
# A reduction as one matrix

The operations that a reduction logs can be performed on any matrix with as many rows. On the
identity they leave the product of their elementary matrices, which is invertible; on every other
matrix they amount to the multiplication by this product. So a transcript yields an invertible
matrix that takes the matrix it was recorded for to its reduced form.
-/

namespace ExactLinear.RatMatrix

open RowOp

variable {n w : ℕ} {m : RatMatrix}

/-- A transcript with genuine operations is replayed to the product with their matrix. -/
theorem Represents.replay {A : Matrix (Fin n) (Fin w) ℚ} (h : m.Represents A) (hn : 0 < n)
    (hw : 0 < w) {t : Transcript} (hops : AllGenuine n t.operations) :
    ∃ s, t.replay m = .ok s ∧ s.Represents (elementaryAll n t.operations * A) ∧
      s.augmented = m.augmented := by
  have hrows : AllGenuine m.shape.rows t.operations := by rwa [h.shape_eq]
  refine ⟨_, Transcript.replay_eq (h.wellFormed hn hw) hrows,
    ⟨h.shape_eq, hops.rectangular h.rectangular, ?_⟩, rfl⟩
  rw [hops.grid_actAll h.rectangular, h.grid_eq]

/-- **A reduction is the multiplication by an invertible matrix that its transcript yields.** The
transcript is replayed on the identity without a failure; what it leaves there has a determinant
other than zero, so that it can be inverted; its product with the matrix has the entries of the
reduced matrix. On every matrix with as many rows, the replay has the entries of the product. -/
theorem reduce_eq_mul_replay_identity (m : RatMatrix) (hm : m.WellFormed) :
    ∃ e p, identity m.shape.rows = .ok e ∧ m.reduce.transcript.replay e = .ok p ∧
      (∃ d, p.determinant = .ok d ∧ d ≠ 0) ∧
      (∃ r, p.inverse = .ok r) ∧
      (∃ q, p.mul m = .ok q ∧ q.sameEntries m.reduce.matrix = true) ∧
      ∀ b : RatMatrix, b.WellFormed → b.shape.rows = m.shape.rows →
        ∃ q s, p.mul b = .ok q ∧ m.reduce.transcript.replay b = .ok s ∧
          q.sameEntries s = true := by
  have hn := hm.1
  obtain ⟨hops, -⟩ := reduce_eq hm
  obtain ⟨e, he, hrepr, hplain'⟩ := represents_identity hn
  obtain ⟨p, hp, hprod, hplain⟩ := hrepr.replay hn hn hops
  rw [Matrix.mul_one] at hprod
  have hdet : (elementaryAll m.shape.rows m.reduce.transcript.operations).det ≠ 0 :=
    ((Matrix.isUnit_iff_isUnit_det _).mp hops.isUnit_elementaryAll).ne_zero
  -- the replay on a matrix and the product with it represent the same matrix
  have hreplay : ∀ b : RatMatrix, b.WellFormed → b.shape.rows = m.shape.rows →
      ∃ q s, p.mul b = .ok q ∧ m.reduce.transcript.replay b = .ok s ∧ q.sameEntries s = true := by
    intro b hb hrows
    have hgrid : b.Represents (grid m.shape.rows b.shape.cols b.rows) := by
      rw [← hrows]
      exact hb.represents
    obtain ⟨q, hq, hqrepr, -⟩ := hprod.mul hgrid
    obtain ⟨s, hs, hsrepr⟩ := hgrid.replay hn hb.2.1 hops
    exact ⟨q, s, hq, hs, hqrepr.sameEntries_eq_true hsrepr.1⟩
  obtain ⟨q, s, hq, hs, hsame⟩ := hreplay m hm rfl
  obtain rfl := Except.ok.inj (hs.symm.trans (replay_reduce hm).2)
  exact ⟨e, p, he, hp, ⟨_, hprod.determinant_eq (hplain.trans hplain'), hdet⟩,
    (hprod.inverse hn hdet).imp fun r hr => hr.1, ⟨q, hq, hsame⟩, hreplay⟩

/-- The matrix of a reduction with an exchange, which takes the system to its reduced form and acts
on another column like the replay. -/
theorem reduce_eq_mul_replay_identity_of_exchange :
    ∃ p q s, (⟨⟨2, 3⟩, [[0, 2, 4], [1, 1, 1]], true⟩ : RatMatrix).reduce.transcript.replay
          ⟨⟨2, 2⟩, [[1, 0], [0, 1]], false⟩ = .ok p ∧
      p.mul ⟨⟨2, 1⟩, [[3], [5]], false⟩ = .ok q ∧
      (⟨⟨2, 3⟩, [[0, 2, 4], [1, 1, 1]], true⟩ : RatMatrix).reduce.transcript.replay
          ⟨⟨2, 1⟩, [[3], [5]], false⟩ = .ok s ∧
      q.sameEntries s = true ∧
      p = ⟨⟨2, 2⟩, [[-1 / 2, 1], [1 / 2, 0]], false⟩ := by
  obtain ⟨e, p, he, hp, -, -, -, hreplay⟩ :=
    reduce_eq_mul_replay_identity ⟨⟨2, 3⟩, [[0, 2, 4], [1, 1, 1]], true⟩ (by decide)
  have hidentity : identity 2 = .ok ⟨⟨2, 2⟩, [[1, 0], [0, 1]], false⟩ := by decide
  obtain rfl := Except.ok.inj (hidentity.symm.trans he)
  obtain ⟨q, s, hq, hs, hsame⟩ := hreplay ⟨⟨2, 1⟩, [[3], [5]], false⟩ (by decide) rfl
  have hmatrix : (⟨⟨2, 3⟩, [[0, 2, 4], [1, 1, 1]], true⟩ : RatMatrix).reduce.transcript.replay
      ⟨⟨2, 2⟩, [[1, 0], [0, 1]], false⟩ =
        .ok ⟨⟨2, 2⟩, [[-1 / 2, 1], [1 / 2, 0]], false⟩ := by decide +kernel
  exact ⟨p, q, s, hp, hq, hs, hsame, Except.ok.inj (hp.symm.trans hmatrix)⟩

end ExactLinear.RatMatrix
