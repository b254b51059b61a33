import ExactLinear.Proofs.Reduction

/-!
# What the transcript of a reduction records

Every operation that a reduction performs changes the rows. An exchange brings up an entry of
strictly larger absolute value, a division turns a pivot other than one into a one, and a
subtraction takes a multiple other than zero of a row with a one. `Effective` states this for a list
of operations performed one after the other, and follows the two passes of the elimination.

`Derivation` states what a transcript has to be in order to record the way from one matrix to
another: pairs of a genuine operation and the matrix that it leaves behind, which differs from the
one before. The transcript of a reduction is such a derivation between two snapshots of its ends.
-/

namespace ExactLinear

open RatMatrix (entryAt pivotRow? lead?)
open RowOp

variable {n w r j vars : ℕ} {lead : ℕ → ℕ} {rows rows' : List (List ℚ)}

/-! ## Operations that change the rows -/

/-- Performed one after the other, each operation of the list changes the rows. -/
def Effective (rows : List (List ℚ)) : List RowOp → Prop
  | [] => True
  | op :: ops => act rows op ≠ rows ∧ Effective (act rows op) ops

theorem effective_append {ops ops' : List RowOp} :
    Effective rows (ops ++ ops') ↔ Effective rows ops ∧ Effective (actAll rows ops) ops' := by
  induction ops generalizing rows with
  | nil => exact (and_iff_right trivial).symm
  | cons op ops ih => simp only [List.cons_append, Effective, ih, actAll_cons, and_assoc]

theorem effective_singleton {op : RowOp} : Effective rows [op] ↔ act rows op ≠ rows :=
  and_iff_left trivial

/-- Rows that differ in an entry are different. -/
theorem ne_of_entryAt_ne {i c : ℕ} (h : entryAt rows i c ≠ entryAt rows' i c) : rows ≠ rows' :=
  fun heq => h (by rw [heq])

/-- Of equal candidates the first one is kept: another one than the start is strictly larger. -/
theorem foldl_argmax_eq_or_lt (f : ℕ → ℚ) (start : ℕ) (l : List ℕ) :
    l.foldl (fun p i => if f p < f i then i else p) start = start ∨
      f start < f (l.foldl (fun p i => if f p < f i then i else p) start) := by
  induction l generalizing start with
  | nil => exact .inl rfl
  | cons x l ih =>
    rw [List.foldl_cons]
    by_cases hlt : f start < f x
    · rw [if_pos hlt]
      rcases ih x with heq | hx
      · rw [heq]
        exact .inr hlt
      · exact .inr (hlt.trans hx)
    · rw [if_neg hlt]
      exact ih start

/-- A pivot row other than row `r` has a larger entry than row `r`, in absolute value. -/
theorem abs_lt_abs_of_pivotRow? {p : ℕ} (h : pivotRow? rows r j = some p) (hpr : p ≠ r) :
    (entryAt rows r j).abs < (entryAt rows p j).abs := by
  simp only [pivotRow?] at h
  split at h
  · simp at h
  · obtain rfl := Option.some.inj h
    exact (foldl_argmax_eq_or_lt (fun i => (entryAt rows i j).abs) r _).resolve_left hpr

/-- The exchange of two rows that differ in a column is effective. -/
theorem effective_exchange (h : Rectangular n w rows) {p : ℕ} (hr : r < n) (hp : p < n)
    (hne : p ≠ r → entryAt rows r j ≠ entryAt rows p j) :
    Effective rows (if p = r then [] else [.swap r p]) := by
  split_ifs with hpr
  · trivial
  · rw [effective_singleton]
    refine ne_of_entryAt_ne (i := r) (c := j) ?_
    rw [entryAt_act_swap (h.length_eq.symm ▸ hr) (h.length_eq.symm ▸ hp), Equiv.swap_apply_left]
    exact (hne hpr).symm

/-- The division of a row by one of its entries is effective, unless this entry is a one. -/
theorem effective_division (h : Rectangular n w rows) (hr : r < n)
    (hpivot : entryAt rows r j ≠ 0) :
    Effective rows (if entryAt rows r j = 1 then [] else [.divide r (entryAt rows r j)]) := by
  split_ifs with hone
  · trivial
  · rw [effective_singleton]
    refine ne_of_entryAt_ne (i := r) (c := j) ?_
    rw [entryAt_act_divide (h.length_eq.symm ▸ hr), if_pos rfl, div_self hpivot]
    exact fun heq => hone heq.symm

/-- Subtractions of multiples of a row that is not zero are effective. -/
theorem effective_subtractions (h : Rectangular n w rows) {s : ℕ} (hs : s < n) {c : ℕ}
    (hsource : entryAt rows s c ≠ 0) (f : ℕ → ℚ) {targets : List ℕ}
    (htargets : ∀ k ∈ targets, k < n ∧ k ≠ s) :
    Effective rows (subtractions s f targets) := by
  induction targets generalizing rows with
  | nil => trivial
  | cons k targets ih =>
    obtain ⟨⟨hk, hks⟩, hrest⟩ := List.forall_mem_cons.mp htargets
    by_cases hf : f k = 0
    · have hskip : subtractions s f (k :: targets) = subtractions s f targets := by
        simp [subtractions, hf]
      rw [hskip]
      exact ih h hsource hrest
    · have htake : subtractions s f (k :: targets) =
          .subtract k s (f k) :: subtractions s f targets := by
        simp [subtractions, hf]
      have hgen : (RowOp.subtract k s (f k)).Genuine n := ⟨hk, hs, hks, hf⟩
      rw [htake]
      refine ⟨ne_of_entryAt_ne (i := k) (c := c) ?_, ih (hgen.rectangular h) ?_ hrest⟩
      · rw [entryAt_act_subtract h hk, if_pos rfl, Ne, sub_eq_self]
        exact mul_ne_zero hf hsource
      · -- the source is no target, so it is there for the next subtraction
        rwa [entryAt_act_subtract h hk, if_neg hks.symm]

/-! ## The passes of an elimination -/

/-- The operations for one pivot are effective. -/
theorem effective_pivotOps (h : Rectangular n w rows) {p : ℕ}
    (hpivot : pivotRow? rows r j = some p) :
    Effective rows (Reduction.pivotOps rows r p j) := by
  obtain ⟨hrp, hp, hne⟩ := pivotRow?_spec hpivot
  rw [h.length_eq] at hp
  have hr : r < n := by omega
  have hexchanged : entryAt (actAll rows (if p = r then [] else [.swap r p])) r j ≠ 0 := by
    rwa [entryAt_exchange h hr hp, Equiv.swap_apply_left]
  obtain ⟨hgen, hraised⟩ := raiseOps_spec h hr hp hne
  rw [pivotOps_eq, effective_append]
  refine ⟨?_, effective_subtractions (hgen.rectangular h) hr (c := j) ?_ _ fun k hk => ?_⟩
  · rw [raiseOps, effective_append]
    refine ⟨effective_exchange (j := j) h hr hp fun hpr heq => ?_,
      effective_division ((allGenuine_exchange hr hp).rectangular h) hr hexchanged⟩
    have hlt := abs_lt_abs_of_pivotRow? hpivot hpr
    rw [heq] at hlt
    exact lt_irrefl _ hlt
  · rw [hraised, if_pos rfl, div_self hne]
    exact one_ne_zero
  · have hbelow := h.mem_rowsBelow_iff.mp hk
    exact ⟨hbelow.2, hbelow.1.ne'⟩

/-- The operations of the forward pass are effective. -/
theorem effective_forwardOps (h : Rectangular n w rows) (columns : List ℕ) :
    Effective rows (Reduction.forwardOps columns rows r) := by
  induction columns generalizing r rows with
  | nil => trivial
  | cons j columns ih =>
    unfold Reduction.forwardOps
    cases hpivot : pivotRow? rows r j with
    | none => exact ih h
    | some p =>
      obtain ⟨hrp, hp, hne⟩ := pivotRow?_spec hpivot
      rw [h.length_eq] at hp
      have hgen := (pivotOps_spec h hrp hp hne).1
      exact effective_append.mpr ⟨effective_pivotOps h hpivot, ih (hgen.rectangular h)⟩

/-- The operations of the backward pass are effective, since the leads are ones. -/
theorem ReducedFrom.effective_backwardOps {i : ℕ} (hs : ReducedFrom i vars r lead rows)
    (h : Rectangular n w rows) : Effective rows (Reduction.backwardOps vars i rows) := by
  induction i generalizing rows with
  | zero => trivial
  | succ i ih =>
    unfold Reduction.backwardOps
    rcases lt_or_ge i r with hi | hi
    · have hin : i < n := hi.trans_le (h.length_eq ▸ hs.le_length)
      have htargets : ∀ k ∈ List.range i, k < n ∧ k ≠ i := by
        intro k hk
        rw [List.mem_range] at hk
        omega
      have hlead : entryAt rows i (lead i) ≠ 0 := by
        rw [hs.lead_eq_one i hi]
        exact one_ne_zero
      have hgen := allGenuine_subtractions hin (fun k => entryAt rows k (lead i)) htargets
      rw [hs.lead?_of_lt hi]
      exact effective_append.mpr ⟨effective_subtractions h hin hlead _ htargets,
        ih (hs.clear h hi) (hgen.rectangular h)⟩
    · rw [hs.lead?_of_le hi]
      exact ih (hs.skip hi) h

/-- The operations of an elimination are effective. -/
theorem effective_operations {m : RatMatrix} (hm : m.WellFormed) :
    Effective m.rows (Reduction.operations m) := by
  obtain ⟨hgen, r, lead, hstart⟩ := forward_spec hm
  exact effective_append.mpr ⟨effective_forwardOps hm.rectangular _,
    hstart.effective_backwardOps (hgen.rectangular hm.rectangular)⟩

/-- A matrix that is not reduced needs an operation. -/
theorem operations_ne_nil {m : RatMatrix} (hm : m.WellFormed) (hred : ¬m.isReduced = true) :
    Reduction.operations m ≠ [] := by
  intro hnil
  obtain ⟨-, hreduced⟩ := operations_spec hm
  rw [hnil, actAll_nil] at hreduced
  exact hred (isReduced_iff_exists_reduced.mpr hreduced)

/-! ## Derivations -/

/-- The transcript records how the second matrix was reached from the first one: each of its pairs
is a genuine operation with the matrix that it leaves behind, which has the flag of the matrix
before and is another one. -/
inductive Derivation : RatMatrix → Transcript → RatMatrix → Prop where
  | refl (m : RatMatrix) : Derivation m [] m
  | step {m next last : RatMatrix} {op : RowOp} {t : Transcript}
    (hgenuine : op.Genuine m.shape.rows)
    (happly : op.apply m.rows = .ok next.rows)
    (hnext : RatMatrix.ofRows next.rows m.augmented = .ok next)
    (hne : next ≠ m)
    (hrest : Derivation next t last) :
    Derivation m (.operation op :: .matrix "" next :: t) last

/-- The steps of genuine and effective operations are a derivation. -/
theorem derivation_steps {m : RatMatrix} (hm : m.WellFormed) {ops : List RowOp}
    (hgen : AllGenuine m.shape.rows ops) (heff : Effective m.rows ops) :
    Derivation m (Reduction.steps m ops) { m with rows := actAll m.rows ops } := by
  induction ops generalizing m with
  | nil => exact .refl m
  | cons op ops ih =>
    obtain ⟨hop, hops⟩ := List.forall_mem_cons.mp hgen
    obtain ⟨hchange, hchanges⟩ := heff
    have hrect := hop.rectangular hm.rectangular
    refine .step hop (hop.apply_eq hm.rectangular.length_eq)
      (hrect.ofRows_eq hm.1 hm.2.1 m.augmented)
      (fun heq => hchange (congrArg RatMatrix.rows heq)) ?_
    exact ih ⟨hm.1, hm.2.1, hrect.length_eq, hrect.row_length⟩ hops hchanges

namespace RatMatrix

/-- **The transcript of a reduction is faithful.** It starts with the matrix. If this is reduced
already, no operation follows; otherwise there is one at least, and the steps derive the reduced
matrix, with which the transcript ends. In both cases its operations, performed again on the matrix,
lead to the reduced matrix. -/
theorem reduce_transcript_faithful (m : RatMatrix) (hm : m.WellFormed) :
    m.reduce.transcript.head? = some (.matrix "Initial matrix" m) ∧
      (m.isReduced = true → m.reduce.transcript.operations = []) ∧
      (m.isReduced = false → ∃ steps, steps ≠ [] ∧ Derivation m steps m.reduce.matrix ∧
        m.reduce.transcript = .matrix "Initial matrix" m :: steps ++
          [.matrix "Reduced row-echelon form" m.reduce.matrix]) ∧
      m.reduce.transcript.replay m = .ok m.reduce.matrix := by
  refine ⟨?_, fun hred => ?_, fun hred => ?_, (replay_reduce hm).2⟩
  · rw [reduce]
    split_ifs <;> rfl
  · rw [reduce, if_pos hred]
    rfl
  · have hred : ¬m.isReduced = true := by rw [hred]; exact Bool.false_ne_true
    have hder := derivation_steps hm (operations_spec hm).1 (effective_operations hm)
    obtain ⟨op, ops, hops⟩ := List.exists_cons_of_ne_nil (operations_ne_nil hm hred)
    rw [reduce, if_neg hred]
    refine ⟨Reduction.steps m (Reduction.operations m), ?_, hder, rfl⟩
    rw [hops]
    exact List.cons_ne_nil _ _

/-- The derivation of a matrix whose rows have to be exchanged. -/
theorem reduce_transcript_faithful_of_exchange :
    ∃ steps, steps ≠ [] ∧
      Derivation ⟨⟨2, 3⟩, [[0, 2, 4], [1, 1, 1]], true⟩ steps
        ⟨⟨2, 3⟩, [[1, 0, -1], [0, 1, 2]], true⟩ ∧
      Transcript.operations steps = [.swap 0 1, .divide 1 2, .subtract 0 1 1] := by
  have hred : (⟨⟨2, 3⟩, [[0, 2, 4], [1, 1, 1]], true⟩ : RatMatrix).isReduced = false := by
    decide +kernel
  have hmatrix : (⟨⟨2, 3⟩, [[0, 2, 4], [1, 1, 1]], true⟩ : RatMatrix).reduce.matrix =
      ⟨⟨2, 3⟩, [[1, 0, -1], [0, 1, 2]], true⟩ := by decide +kernel
  obtain ⟨-, -, hsteps, -⟩ :=
    reduce_transcript_faithful ⟨⟨2, 3⟩, [[0, 2, 4], [1, 1, 1]], true⟩ (by decide)
  obtain ⟨steps, hne, hder, htranscript⟩ := hsteps hred
  have hops : (⟨⟨2, 3⟩, [[0, 2, 4], [1, 1, 1]], true⟩ : RatMatrix).reduce.transcript.operations =
      [.swap 0 1, .divide 1 2, .subtract 0 1 1] := by decide +kernel
  rw [hmatrix] at hder
  rw [htranscript] at hops
  refine ⟨steps, hne, hder, ?_⟩
  simpa [Transcript.operations] using hops

end RatMatrix

end ExactLinear
