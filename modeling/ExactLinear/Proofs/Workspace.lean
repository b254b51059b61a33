import ExactLinear.Proofs.CheckedReads
import ExactLinear.Proofs.InPlace
import ExactLinear.Proofs.RowBuffer

/-!
# A reduction in its workspace

`RatMatrix.reduce` first chooses all row operations and then makes of them the matrix and the
transcript. A `Workspace` is a buffer with a log, and a reduction in it goes step by step: it reads
an entry of the buffer, with the check that it is there, performs an operation on the buffer, logs
the operation and then a snapshot of what the buffer holds. So the log tells at every moment, also
when a step fails, how the buffer came about (`inStep_elimination`). On well-formed matrices no step
fails, and the two reductions agree (`Checked.reduce_eq`).
-/

namespace ExactLinear

open RatMatrix (entryAt)
open RowOp

/-- The buffer of a reduction and what has been logged so far. -/
structure Workspace where
  rows : List (List ℚ)
  augmented : Bool
  transcript : Transcript

namespace Workspace

variable {α β : Type}

/-! ## Steps -/

/-- A computation in a workspace. -/
abbrev Step := InPlace Workspace LinearError

/-- Reads the buffer. -/
def read (f : List (List ℚ) → Except LinearError α) : Step α := do
  ofExcept (f (← get).rows)

/-- Adds an entry to the log. -/
def log (entry : Entry) : Step Unit :=
  modify fun ws => { ws with transcript := ws.transcript ++ [entry] }

/-- Performs an operation on the buffer. -/
def perform (op : RowOp) : Step Unit :=
  .within Workspace.rows (fun ws rows => { ws with rows }) id op.perform

/-- Logs the matrix that the buffer holds. -/
def snapshot : Step Unit := do
  let ws ← get
  let m ← ofExcept (RatMatrix.ofRows ws.rows ws.augmented)
  log (.matrix "" m)

/-- Performs an operation, and logs it with a snapshot of what it leaves behind. -/
def advance (op : RowOp) : Step Unit := do
  perform op
  log (.operation op)
  snapshot

/-- Clears column `c` in the target rows, one after the other, by means of a pivot row with a one
there. -/
def eliminate (pivot c : ℕ) : List ℕ → Step Unit
  | [] => pure ()
  | k :: targets => do
    let factor ← read (Checked.entry · k c)
    if factor = 0 then eliminate pivot c targets
    else do
      advance (.subtract k pivot factor)
      eliminate pivot c targets

/-- Brings row `p` up to row `r`, if it is not there already. -/
def exchange (r p : ℕ) : Step Unit := if p = r then pure () else advance (.swap r p)

/-- Divides row `r`, if the divisor is not one. -/
def divide (r : ℕ) (d : ℚ) : Step Unit := if d = 1 then pure () else advance (.divide r d)

/-- Makes the entry of row `p` in column `j` the pivot of row `r`, and clears the column below. -/
def pivot (n r p j : ℕ) : Step Unit := do
  exchange r p
  divide r (← read (Checked.entry · r j))
  eliminate r j (List.range' (r + 1) (n - (r + 1)))

/-- The forward pass over the given columns of `n` rows, where `r` rows hold a pivot already. -/
def forward (n : ℕ) : List ℕ → ℕ → Step Unit
  | [], _ => pure ()
  | j :: columns, r =>
    if r = n then pure ()
    else do
      match ← read (Checked.pivotRow? · r j) with
      | none => forward n columns r
      | some p => do
        pivot n r p j
        forward n columns (r + 1)

/-- The backward pass over rows `n - 1` down to `0`. -/
def backward (vars : ℕ) : ℕ → Step Unit
  | 0 => pure ()
  | i + 1 => do
    match ← read fun rows => Checked.line rows i >>= Checked.lead? vars with
    | none => backward vars i
    | some c => do
      eliminate i c (List.range i)
      backward vars i

/-- Both passes over a matrix with `n` rows. -/
def elimination (n vars : ℕ) : Step Unit := do
  forward n (List.range vars) 0
  backward vars n

/-- The workspace of a matrix before the first step. -/
def start (m : RatMatrix) : Workspace := ⟨m.rows, m.augmented, [.matrix "Initial matrix" m]⟩

/-! ## Log and buffer -/

/-- The log tells how the buffer came about from the given rows. -/
def InStep (rows : List (List ℚ)) (ws : Workspace) : Prop :=
  ws.transcript.operations.foldlM (fun rows op => op.apply rows) rows = .ok ws.rows

/-- The computation keeps the log in step with the buffer, also when it fails. -/
def Keeps (x : Step α) : Prop :=
  ∀ rows ws, InStep rows ws → InStep rows (x.run.run ws).2

theorem Keeps.pure (a : α) : Keeps (Pure.pure a) := fun _ _ h => h

theorem Keeps.bind {x : Step α} {f : α → Step β} (hx : Keeps x) (hf : ∀ a, Keeps (f a)) :
    Keeps (x >>= f) := by
  intro rows ws h
  have hnext := hx rows ws h
  rw [InPlace.run_bind]
  rcases hrun : x.run.run ws with ⟨e | a, ws'⟩
  all_goals rw [hrun] at hnext
  · exact hnext
  · exact hf a rows ws' hnext

theorem Keeps.ite {P : Prop} [Decidable P] {x y : Step α} (hx : Keeps x) (hy : Keeps y) :
    Keeps (if P then x else y) := by
  split_ifs
  · exact hx
  · exact hy

theorem Keeps.ofExcept (x : Except LinearError α) : Keeps (ofExcept x) := by
  intro rows ws h
  rwa [InPlace.run_ofExcept]

theorem keeps_read (f : List (List ℚ) → Except LinearError α) : Keeps (read f) :=
  Keeps.bind (fun _ _ h => h) fun _ => .ofExcept _

theorem run_log (entry : Entry) (ws : Workspace) :
    (log entry).run.run ws = (.ok (), { ws with transcript := ws.transcript ++ [entry] }) := rfl

/-- A snapshot is no operation. -/
theorem keeps_snapshot : Keeps snapshot := by
  refine Keeps.bind (fun _ _ h => h) fun _ => (Keeps.ofExcept _).bind fun m rows ws h => ?_
  have hops : Transcript.operations (ws.transcript ++ [.matrix "" m]) =
      ws.transcript.operations := by
    simp [Transcript.operations]
  rw [run_log, InStep, hops]
  exact h

theorem run_perform (op : RowOp) (ws : Workspace) :
    (perform op).run.run ws =
      match op.apply ws.rows with
      | .ok rows => (.ok (), { ws with rows })
      | .error e => (.error e, ws) := by
  rw [perform, InPlace.run_within, perform_eq]
  cases op.apply ws.rows <;> rfl

/-- An operation that is refused changes nothing, and one that is performed is logged before
anything else can fail. -/
theorem keeps_advance (op : RowOp) : Keeps (advance op) := by
  intro rows ws h
  have hperform := run_perform op ws
  unfold advance
  cases happly : op.apply ws.rows with
  | error e =>
    rw [happly] at hperform
    rwa [InPlace.run_bind_of_error hperform]
  | ok rows' =>
    rw [happly] at hperform
    have hlogged : InStep rows ⟨rows', ws.augmented, ws.transcript ++ [.operation op]⟩ := by
      have hops : Transcript.operations (ws.transcript ++ [.operation op]) =
          ws.transcript.operations ++ [op] := by
        simp [Transcript.operations]
      rw [InStep, hops, List.foldlM_append, h]
      simp only [bind, Except.bind, List.foldlM_cons, happly, List.foldlM_nil]
      rfl
    rw [InPlace.run_bind_of_ok hperform, InPlace.run_bind_of_ok (run_log _ _)]
    exact keeps_snapshot rows _ hlogged

theorem keeps_eliminate (p c : ℕ) (targets : List ℕ) : Keeps (eliminate p c targets) := by
  induction targets with
  | nil => exact .pure ()
  | cons k targets ih =>
    have hclear (factor : ℚ) : Keeps (do
        advance (.subtract k p factor)
        eliminate p c targets) := (keeps_advance _).bind fun _ => ih
    exact (keeps_read _).bind fun factor => ih.ite (hclear factor)

theorem keeps_pivot (n r p j : ℕ) : Keeps (pivot n r p j) := by
  have hexchange : Keeps (exchange r p) := (Keeps.pure ()).ite (keeps_advance _)
  have hdivide (d : ℚ) : Keeps (divide r d) := (Keeps.pure ()).ite (keeps_advance _)
  exact hexchange.bind fun _ => (keeps_read _).bind fun d => (hdivide d).bind fun _ =>
    keeps_eliminate _ _ _

theorem keeps_forward (n : ℕ) (columns : List ℕ) (r : ℕ) : Keeps (forward n columns r) := by
  induction columns generalizing r with
  | nil => exact .pure ()
  | cons j columns ih =>
    refine (Keeps.pure ()).ite ((keeps_read _).bind fun found => ?_)
    cases found with
    | none => exact ih r
    | some p => exact (keeps_pivot n r p j).bind fun _ => ih (r + 1)

theorem keeps_backward (vars i : ℕ) : Keeps (backward vars i) := by
  induction i with
  | zero => exact .pure ()
  | succ i ih =>
    refine (keeps_read _).bind fun lead => ?_
    cases lead with
    | none => exact ih
    | some c => exact (keeps_eliminate _ _ _).bind fun _ => ih

theorem keeps_elimination (n vars : ℕ) : Keeps (elimination n vars) :=
  (keeps_forward _ _ _).bind fun _ => keeps_backward _ _

/-- **The log accounts for the buffer.** Whatever the rows are, and also when a step fails, the
operations of the log lead from the rows at the start to what the buffer holds. -/
theorem inStep_elimination (m : RatMatrix) (n vars : ℕ) :
    InStep m.rows ((elimination n vars).run.run (start m)).2 :=
  keeps_elimination n vars _ _ rfl

/-! ## Steps that succeed -/

variable {n w vars : ℕ} {ws : Workspace} {op : RowOp} {ops ops' : List RowOp}

/-- The buffer holds `n` rows of `w` entries, and at least one entry. -/
structure Filled (n w : ℕ) (ws : Workspace) : Prop where
  rows_pos : 0 < n
  cols_pos : 0 < w
  rectangular : Rectangular n w ws.rows

/-- The matrix that the buffer holds. -/
def matrix (n w : ℕ) (ws : Workspace) : RatMatrix := ⟨⟨n, w⟩, ws.rows, ws.augmented⟩

/-- The workspace after operations that succeed. -/
def after (n w : ℕ) (ws : Workspace) (ops : List RowOp) : Workspace :=
  { ws with
    rows := actAll ws.rows ops
    transcript := ws.transcript ++ Reduction.steps (ws.matrix n w) ops }

theorem steps_append (m : RatMatrix) (ops ops' : List RowOp) :
    Reduction.steps m (ops ++ ops') =
      Reduction.steps m ops ++ Reduction.steps { m with rows := actAll m.rows ops } ops' := by
  induction ops generalizing m with
  | nil => rfl
  | cons op ops ih =>
    rw [List.cons_append, Reduction.steps, Reduction.steps, ih]
    rfl

theorem after_nil (ws : Workspace) : after n w ws [] = ws := by
  rw [after, Reduction.steps, List.append_nil]
  rfl

theorem after_append (ws : Workspace) (ops ops' : List RowOp) :
    after n w ws (ops ++ ops') = after n w (after n w ws ops) ops' := by
  rw [after, steps_append, actAll_append, ← List.append_assoc]
  rfl

theorem Filled.after (h : Filled n w ws) (hops : AllGenuine n ops) :
    Filled n w (ws.after n w ops) :=
  ⟨h.rows_pos, h.cols_pos, hops.rectangular h.rectangular⟩

theorem run_read {f : List (List ℚ) → Except LinearError α} {a : α} (h : f ws.rows = .ok a) :
    (read f).run.run ws = (.ok a, ws) := by
  rw [read, InPlace.run_bind_of_ok (InPlace.run_get ws), h]
  rfl

/-- A genuine operation is performed and logged. -/
theorem run_advance (h : Filled n w ws) (hop : op.Genuine n) :
    (advance op).run.run ws = (.ok (), ws.after n w [op]) := by
  have hrect := hop.rectangular h.rectangular
  have hperform := run_perform op ws
  rw [hop.apply_eq h.rectangular.length_eq] at hperform
  have hsnapshot := hrect.ofRows_eq h.rows_pos h.cols_pos ws.augmented
  rw [advance, InPlace.run_bind_of_ok hperform, InPlace.run_bind_of_ok (run_log _ _), snapshot,
    InPlace.run_bind_of_ok (InPlace.run_get _), hsnapshot,
    InPlace.run_bind_of_ok (InPlace.run_ofExcept _ _), run_log, List.append_assoc]
  rfl

/-- One target after the other is cleared, as by the subtractions of the entries that the targets
had before the first of them: a subtraction changes neither the pivot row nor another target. -/
theorem run_eliminate (h : Filled n w ws) {p c : ℕ} (hp : p < n) (hc : c < w) {targets : List ℕ}
    (htargets : ∀ k ∈ targets, k < n ∧ k ≠ p) (hnodup : targets.Nodup) :
    (eliminate p c targets).run.run ws =
      (.ok (), ws.after n w (subtractions p (fun k => entryAt ws.rows k c) targets)) := by
  induction targets generalizing ws with
  | nil => exact congrArg _ (after_nil ws).symm
  | cons k targets ih =>
    obtain ⟨⟨hk, hkp⟩, hrest⟩ := List.forall_mem_cons.mp htargets
    obtain ⟨hnot, hnodup⟩ := List.nodup_cons.mp hnodup
    rw [eliminate, InPlace.run_bind_of_ok (run_read (Checked.entry_eq h.rectangular hk hc)),
      subtractions, List.filterMap_cons]
    by_cases hzero : entryAt ws.rows k c = 0
    · rw [if_pos hzero, if_pos hzero]
      exact ih h hrest hnodup
    · have hgen : (RowOp.subtract k p (entryAt ws.rows k c)).Genuine n := ⟨hk, hp, hkp, hzero⟩
      rw [if_neg hzero, if_neg hzero, InPlace.run_bind_of_ok (run_advance h hgen),
        ih (h.after (List.forall_mem_singleton.mpr hgen)) hrest hnodup, ← after_append]
      have hsame : subtractions p (fun i => entryAt (act ws.rows
          (.subtract k p (entryAt ws.rows k c))) i c) targets =
            subtractions p (fun i => entryAt ws.rows i c) targets :=
        subtractions_congr fun i hi => by
          rw [entryAt_act_subtract h.rectangular hk, if_neg (ne_of_mem_of_not_mem hi hnot)]
      exact congrArg (fun rest => (Except.ok (), ws.after n w (_ :: rest))) hsame

/-- An operation that may be left out is performed, or nothing happens. -/
theorem run_ite_advance {P : Prop} [Decidable P] (h : Filled n w ws)
    (hgen : AllGenuine n (if P then [] else [op])) :
    (if P then pure () else advance op : Step Unit).run.run ws =
      (.ok (), ws.after n w (if P then [] else [op])) := by
  split_ifs at hgen ⊢
  · exact congrArg _ (after_nil ws).symm
  · exact run_advance h (List.forall_mem_singleton.mp hgen)

theorem run_exchange (h : Filled n w ws) {r p : ℕ} (hr : r < n) (hp : p < n) :
    (exchange r p).run.run ws = (.ok (), ws.after n w (if p = r then [] else [.swap r p])) :=
  run_ite_advance h (allGenuine_exchange hr hp)

theorem run_divide (h : Filled n w ws) {r : ℕ} (hr : r < n) {d : ℚ} (hd : d ≠ 0) :
    (divide r d).run.run ws = (.ok (), ws.after n w (if d = 1 then [] else [.divide r d])) :=
  run_ite_advance h (allGenuine_division hr hd)

/-- A pivot is raised and its column cleared by the operations that are chosen for it. -/
theorem run_pivot (h : Filled n w ws) {r p j : ℕ} (hr : r < n) (hp : p < n) (hj : j < w)
    (hpivot : entryAt ws.rows p j ≠ 0) :
    (pivot n r p j).run.run ws = (.ok (), ws.after n w (Reduction.pivotOps ws.rows r p j)) := by
  have hrows := h.rectangular
  have hexchange := h.after (allGenuine_exchange hr hp)
  have hraised := h.after (raiseOps_spec hrows hr hp hpivot).1
  have hne : entryAt (ws.after n w (if p = r then [] else [.swap r p])).rows r j ≠ 0 := by
    rw [after, entryAt_exchange hrows hr hp, Equiv.swap_apply_left]
    exact hpivot
  have htargets : ∀ k ∈ List.range' (r + 1) (n - (r + 1)), k < n ∧ k ≠ r := by
    intro k hk
    rw [List.mem_range'_1] at hk
    omega
  rw [pivot, InPlace.run_bind_of_ok (run_exchange h hr hp),
    InPlace.run_bind_of_ok (run_read (Checked.entry_eq hexchange.rectangular hr hj)),
    InPlace.run_bind_of_ok (run_divide hexchange hr hne), ← after_append]
  show (eliminate r j _).run.run (ws.after n w (raiseOps ws.rows r p j)) = _
  rw [run_eliminate hraised hr hj htargets List.nodup_range', ← after_append, pivotOps_eq,
    hrows.length_eq]
  rfl

/-- No row is left below the last one, and no operation is chosen for the columns that are left. -/
theorem forwardOps_of_length_le {rows : List (List ℚ)} {r : ℕ} (hr : rows.length ≤ r)
    (columns : List ℕ) : Reduction.forwardOps columns rows r = [] := by
  induction columns with
  | nil => rfl
  | cons j columns ih =>
    unfold Reduction.forwardOps
    cases hpivot : RatMatrix.pivotRow? rows r j with
    | none => exact ih
    | some p =>
      obtain ⟨hrp, hp, -⟩ := pivotRow?_spec hpivot
      omega

theorem run_forward (h : Filled n w ws) {columns : List ℕ} (hcolumns : ∀ j ∈ columns, j < w)
    {r : ℕ} (hr : r ≤ n) :
    (forward n columns r).run.run ws =
      (.ok (), ws.after n w (Reduction.forwardOps columns ws.rows r)) := by
  induction columns generalizing ws r with
  | nil => exact congrArg _ (after_nil ws).symm
  | cons j columns ih =>
    obtain ⟨hj, hcolumns⟩ := List.forall_mem_cons.mp hcolumns
    unfold forward
    split_ifs with hend
    · rw [forwardOps_of_length_le (by rw [h.rectangular.length_eq, hend]), after_nil]
      rfl
    · have hlt : r < n := lt_of_le_of_ne hr hend
      rw [InPlace.run_bind_of_ok (run_read (Checked.pivotRow?_eq h.rectangular hlt hj)),
        Reduction.forwardOps]
      cases hpivot : RatMatrix.pivotRow? ws.rows r j with
      | none => exact ih h hcolumns hr
      | some p =>
        obtain ⟨hrp, hp, hne⟩ := pivotRow?_spec hpivot
        rw [h.rectangular.length_eq] at hp
        have hgen := (pivotOps_spec h.rectangular hrp hp hne).1
        dsimp only
        rw [InPlace.run_bind_of_ok (run_pivot h hlt hp hj hne), ih (h.after hgen) hcolumns hlt,
          after_append]
        rfl

theorem run_backward (h : Filled n w ws) (hvars : vars ≤ w) {i : ℕ} (hi : i ≤ n) :
    (backward vars i).run.run ws =
      (.ok (), ws.after n w (Reduction.backwardOps vars i ws.rows)) := by
  induction i generalizing ws with
  | zero => exact congrArg _ (after_nil ws).symm
  | succ i ih =>
    have hlead : (Checked.line ws.rows i >>= Checked.lead? vars) =
        .ok (RatMatrix.lead? vars (ws.rows.getD i [])) := by
      rw [Checked.line_eq h.rectangular hi]
      exact Checked.lead?_eq (hvars.trans_eq (h.rectangular.length_getD hi).symm)
    rw [backward, InPlace.run_bind_of_ok (run_read hlead), Reduction.backwardOps]
    cases hc : RatMatrix.lead? vars (ws.rows.getD i []) with
    | none => exact ih h (Nat.le_of_succ_le hi)
    | some c =>
      have hcw : c < w := (lead?_eq_some_iff.mp hc).1.trans_le hvars
      have htargets : ∀ k ∈ List.range i, k < n ∧ k ≠ i := by
        intro k hk
        rw [List.mem_range] at hk
        omega
      have hgen := allGenuine_subtractions hi (fun k => entryAt ws.rows k c) htargets
      dsimp only
      rw [InPlace.run_bind_of_ok (run_eliminate h hi hcw htargets List.nodup_range),
        ih (h.after hgen) (Nat.le_of_succ_le hi), after_append]
      rfl

/-- Both passes perform the operations that `Reduction.operations` chooses. -/
theorem run_elimination {m : RatMatrix} (hm : m.WellFormed) :
    (elimination m.shape.rows m.variableCount).run.run (start m) =
      (.ok (), (start m).after m.shape.rows m.shape.cols (Reduction.operations m)) := by
  have h : Filled m.shape.rows m.shape.cols (start m) := ⟨hm.1, hm.2.1, hm.rectangular⟩
  have hvars := Checked.variableCount_le m
  have hcolumns : ∀ j ∈ List.range m.variableCount, j < m.shape.cols :=
    fun j hj => (List.mem_range.mp hj).trans_le hvars
  have hforward := run_forward h hcolumns (Nat.zero_le _)
  have hbackward := run_backward (h.after (forward_spec hm).1) hvars le_rfl
  rw [elimination, InPlace.run_bind_of_ok hforward, Reduction.operations, after_append,
    hm.rectangular.length_eq]
  exact hbackward

end Workspace

/-! ## The reduction -/

namespace Checked

/-- Reduces a matrix in a workspace, with every check made. -/
def reduce (m : RatMatrix) : Except LinearError Reduction := do
  if ← isReduced m then
    return { matrix := m
             transcript :=
               [.matrix "Initial matrix" m,
                 .note "The matrix is already in reduced row-echelon form."] }
  else
    let (result, ws) :=
      (Workspace.elimination m.shape.rows m.variableCount).run.run (Workspace.start m)
    result
    let reduced ← RatMatrix.ofRows ws.rows m.augmented
    return { matrix := reduced
             transcript := ws.transcript ++ [.matrix "Reduced row-echelon form" reduced] }

/-- A reduction in a workspace performs all its operations and makes all its snapshots without a
failed check, and comes to the same matrix and the same transcript. -/
theorem reduce_eq {m : RatMatrix} (hm : m.WellFormed) : reduce m = .ok m.reduce := by
  rw [reduce, RatMatrix.reduce, isReduced_eq hm]
  cases hred : m.isReduced with
  | true => rfl
  | false =>
    have hrect := (operations_spec hm).1.rectangular hm.rectangular
    have hreduced : RatMatrix.ofRows ((Workspace.start m).after m.shape.rows m.shape.cols
        (Reduction.operations m)).rows m.augmented = .ok _ :=
      hrect.ofRows_eq hm.1 hm.2.1 m.augmented
    simp only [bind, Except.bind, Workspace.run_elimination hm, hreduced]
    rfl

end Checked

end ExactLinear
