import ExactLinear.Rational.Basic
import ExactLinear.Proofs.InPlace
import ExactLinear.Proofs.RowOp

/-!
# Row operations on a buffer

`apply` is a function from rows to rows. `perform` is the same operation on a buffer that it reads
and writes: an exchange writes its two rows, a division writes the quotients once all of them are
there, and a subtraction writes entry after entry and stops where the shorter row ends. What was
written stays when the operation fails afterwards, so it is a result that a failure leaves the
buffer as it was (`perform_eq`). Nothing is assumed about the buffer: it may be empty, and its rows
may differ in length.

The inverse of an operation is one of the same form. A subtraction is undone entry by entry, as far
as it went, because the row that it subtracts is still there (`subtractMultiple_neg`).
-/

namespace ExactLinear.RowOp

variable {op : RowOp} {rows rows' : List (List ℚ)} {e : LinearError}

/-! ## In place -/

/-- A computation on a row buffer, which may have changed when the computation fails. -/
abbrev InPlace := ExactLinear.InPlace (List (List ℚ)) LinearError

/-- Writes a row of the buffer. -/
def writeRow (i : ℕ) (row : List ℚ) : InPlace Unit := modify fun rows => rows.set i row

/-- Writes an entry of the buffer. -/
def writeEntry (i j : ℕ) (x : ℚ) : InPlace Unit :=
  modify fun rows => rows.set i ((rows.getD i []).set j x)

/-- Subtracts multiples of the given entries from the entries of a row, one after the other from
column `j` on, until there are no more of either. -/
def subtractEntries (target : ℕ) (factor : ℚ) : ℕ → List ℚ → InPlace Unit
  | _, [] => pure ()
  | j, y :: ys => do
    match ((← get).getD target [])[j]? with
    | none => pure ()
    | some x =>
      writeEntry target j (x - factor * y)
      subtractEntries target factor (j + 1) ys

/-- Performs the operation on a buffer that holds the given rows, all of which it may touch. -/
def write (rows : List (List ℚ)) : RowOp → InPlace Unit
  | .swap a b => do
    writeRow a (rows.getD b [])
    writeRow b (rows.getD a [])
  | .divide row divisor =>
    match (rows.getD row []).mapM (quotient · divisor) with
    | .error e => throw e
    | .ok quotients => writeRow row quotients
  | .subtract target source factor => subtractEntries target factor 0 (rows.getD source [])

/-- Performs the operation on the buffer, if its rows exist. -/
def perform (op : RowOp) : InPlace Unit := do
  let rows ← get
  match op.touched.find? (rows.length ≤ ·) with
  | some i => throw (.indexOutOfRange i 0 ⟨rows.length, (rows.headD []).length⟩)
  | none => op.write rows

/-- The first quotient by zero is refused. -/
theorem mapM_quotient (d : ℚ) (row : List ℚ) :
    row.mapM (quotient · d) =
      if d = 0 ∧ row ≠ [] then .error .divisionByZero else .ok (row.map (· / d)) := by
  induction row with
  | nil => simp [pure, Except.pure]
  | cons x row ih =>
    rw [List.mapM_cons, ih, quotient]
    by_cases hd : d = 0
    · simp [hd, bind, Except.bind]
    · simp [hd, bind, Except.bind, pure, Except.pure]

theorem run_subtractEntries_cons (t j : ℕ) (f y : ℚ) (ys : List ℚ) (rows : List (List ℚ)) :
    (subtractEntries t f j (y :: ys)).run.run rows =
      match (rows.getD t [])[j]? with
      | none => (.ok (), rows)
      | some x => (subtractEntries t f (j + 1) ys).run.run
          (rows.set t ((rows.getD t []).set j (x - f * y))) := by
  rw [subtractEntries]
  show StateT.run (ExceptT.run (match (rows.getD t [])[j]? with
    | none => pure ()
    | some x => do
      writeEntry t j (x - f * y)
      subtractEntries t f (j + 1) ys)) rows = _
  cases (rows.getD t [])[j]? <;> rfl

/-- Entry after entry, a subtraction does to its row what it does to it as a whole: the entries in
front have been written, and those behind are still to come. -/
theorem run_subtractEntries {t : ℕ} (ht : t < rows.length) (f : ℚ) (front xs ys : List ℚ)
    (hrow : rows.getD t [] = front ++ xs) :
    (subtractEntries t f front.length ys).run.run rows =
      (.ok (), rows.set t (front ++ subtractMultiple f xs ys)) := by
  induction ys generalizing rows front xs with
  | nil =>
    have hstop : subtractMultiple f xs [] = xs := by cases xs <;> rfl
    rw [hstop, ← hrow, List.getD_eq_getElem _ _ ht, List.set_getElem_self]
    rfl
  | cons y ys ih =>
    rw [run_subtractEntries_cons, hrow]
    cases xs with
    | nil =>
      have hstop : subtractMultiple f [] (y :: ys) = [] := rfl
      rw [hstop, ← hrow, List.getD_eq_getElem _ _ ht, List.set_getElem_self]
      rw [List.getD_eq_getElem _ _ ht, List.append_nil] at hrow
      rw [hrow, List.getElem?_eq_none le_rfl]
    | cons x xs =>
      have hread : (front ++ x :: xs)[front.length]? = some x := by simp
      have hwritten : (front ++ x :: xs).set front.length (x - f * y) =
          front ++ [x - f * y] ++ xs := by simp
      have hlength : t < (rows.set t (front ++ [x - f * y] ++ xs)).length := by simpa using ht
      have hrest := ih hlength (front ++ [x - f * y]) xs (by simp [ht])
      rw [List.length_append, List.length_singleton, List.set_set] at hrest
      rw [hread]
      dsimp only
      rw [hwritten, hrest, subtractMultiple, List.append_assoc, List.singleton_append]

/-- In place, the buffer ends with the rows after the operation or, if the operation fails, with the
rows that it held before. -/
theorem perform_eq (op : RowOp) (rows : List (List ℚ)) :
    op.perform.run.run rows =
      match op.apply rows with
      | .ok rows' => (.ok (), rows')
      | .error e => (.error e, rows) := by
  unfold perform apply
  show StateT.run (ExceptT.run (match op.touched.find? (rows.length ≤ ·) with
    | some i => throw (.indexOutOfRange i 0 ⟨rows.length, (rows.headD []).length⟩)
    | none => op.write rows)) rows = _
  cases hfind : op.touched.find? (rows.length ≤ ·) with
  | some i => rfl
  | none =>
    cases op with
    | swap a b => rfl
    | divide r d =>
      have hzero : dividesByZero rows (.divide r d) = true ↔ d = 0 ∧ rows.getD r [] ≠ [] := by
        simp [dividesByZero]
      rw [write, mapM_quotient]
      by_cases hd : d = 0 ∧ rows.getD r [] ≠ []
      · simp only [if_pos hd, if_pos (hzero.mpr hd)]
        rfl
      · simp only [if_neg hd, if_neg (mt hzero.mp hd), act, List.modify_eq_set]
        rfl
    | subtract t s f =>
      have ht : t < rows.length := by simpa using List.find?_eq_none.mp hfind t (by simp [touched])
      have hrun := run_subtractEntries ht f [] (rows.getD t []) (rows.getD s []) rfl
      simp only [write, dividesByZero, Bool.false_eq_true, if_false, act, List.modify_eq_set]
      exact hrun

/-! ## Failure -/

/-- What the operation refuses: the first of its rows that is not there, or a divisor that is zero
where there is an entry to divide. -/
inductive Refuses (rows : List (List ℚ)) : RowOp → LinearError → Prop where
  | missingRow {op : RowOp} {i : ℕ} {before after : List ℕ}
      (htouched : op.touched = before ++ i :: after) (hbefore : ∀ k ∈ before, k < rows.length)
      (hi : rows.length ≤ i) :
      Refuses rows op (.indexOutOfRange i 0 ⟨rows.length, (rows.headD []).length⟩)
  | zeroDivisor {row : ℕ} (hrow : row < rows.length) (hne : rows.getD row [] ≠ []) :
      Refuses rows (.divide row 0) .divisionByZero

theorem find?_touched_eq_some_iff {i : ℕ} : op.touched.find? (rows.length ≤ ·) = some i ↔
    ∃ before after, op.touched = before ++ i :: after ∧ (∀ k ∈ before, k < rows.length) ∧
      rows.length ≤ i := by
  simp only [List.find?_eq_some_iff_append, decide_eq_true_eq, Bool.not_eq_true',
    decide_eq_false_iff_not, not_le]
  constructor
  · rintro ⟨hi, before, after, htouched, hbefore⟩
    exact ⟨before, after, htouched, hbefore, hi⟩
  · rintro ⟨before, after, htouched, hbefore, hi⟩
    exact ⟨hi, before, after, htouched, hbefore⟩

theorem find?_touched_eq_none_iff : op.touched.find? (rows.length ≤ ·) = none ↔
    ∀ i ∈ op.touched, i < rows.length := by
  simp [List.find?_eq_none]

theorem dividesByZero_iff : op.dividesByZero rows = true ↔
    ∃ row, op = .divide row 0 ∧ rows.getD row [] ≠ [] := by
  cases op with
  | divide row divisor =>
    simp only [dividesByZero, Bool.and_eq_true, decide_eq_true_eq, Bool.not_eq_true',
      List.isEmpty_eq_false_iff, RowOp.divide.injEq]
    constructor
    · rintro ⟨rfl, hne⟩
      exact ⟨row, ⟨rfl, rfl⟩, hne⟩
    · rintro ⟨_, ⟨rfl, rfl⟩, hne⟩
      exact ⟨rfl, hne⟩
  | swap a b => simp [dividesByZero]
  | subtract t s f => simp [dividesByZero]

/-- The operation fails exactly with what it refuses. -/
theorem apply_eq_error_iff : op.apply rows = .error e ↔ Refuses rows op e := by
  unfold apply
  constructor
  · intro h
    split at h
    · rename_i i hfind
      obtain ⟨before, after, htouched, hbefore, hi⟩ := find?_touched_eq_some_iff.mp hfind
      exact Except.error.inj h ▸ .missingRow htouched hbefore hi
    · rename_i hfind
      rw [find?_touched_eq_none_iff] at hfind
      split_ifs at h with hzero
      obtain ⟨row, rfl, hne⟩ := dividesByZero_iff.mp hzero
      exact Except.error.inj h ▸ .zeroDivisor (hfind row (by simp [touched])) hne
  · intro h
    cases h with
    | missingRow htouched hbefore hi =>
      rw [find?_touched_eq_some_iff.mpr ⟨_, _, htouched, hbefore, hi⟩]
    | @zeroDivisor row hrow hne =>
      rw [find?_touched_eq_none_iff.mpr (by simpa [touched] using hrow),
        if_pos (dividesByZero_iff.mpr ⟨row, rfl, hne⟩)]

theorem apply_eq_ok_iff : op.apply rows = .ok rows' ↔
    (∀ i ∈ op.touched, i < rows.length) ∧ op.dividesByZero rows = false ∧ act rows op = rows' := by
  rw [← find?_touched_eq_none_iff, apply]
  cases op.touched.find? (rows.length ≤ ·) with
  | some i => simp
  | none => cases op.dividesByZero rows <;> simp

/-! ## The inverse operation -/

/-- The operation that undoes this one. -/
def inverse : RowOp → RowOp
  | .swap a b => .swap a b
  | .divide row divisor => .divide row (1 / divisor)
  | .subtract target source factor => .subtract target source (-factor)

/-- The operation loses nothing: it does not divide by zero, and it subtracts from another row than
the one that it subtracts. -/
def Reversible : RowOp → Prop
  | .swap _ _ => True
  | .divide _ divisor => divisor ≠ 0
  | .subtract target source _ => target ≠ source

/-- What was subtracted can be added again, as far as the subtraction reached. -/
theorem subtractMultiple_neg (f : ℚ) (xs ys : List ℚ) :
    subtractMultiple (-f) (subtractMultiple f xs ys) ys = xs := by
  fun_induction subtractMultiple f xs ys with
  | case1 x xs y ys ih =>
    rw [subtractMultiple, ih, neg_mul, sub_neg_eq_add, sub_add_cancel]
  | case2 xs ys hnot =>
    cases xs with
    | nil => rfl
    | cons x xs =>
      cases ys with
      | nil => rfl
      | cons y ys => exact absurd rfl (hnot x xs y ys rfl)

theorem map_div_one_div {d : ℚ} (hd : d ≠ 0) (row : List ℚ) :
    (row.map (· / d)).map (· / (1 / d)) = row := by
  rw [List.map_map]
  refine (List.map_congr_left fun x _ => ?_).trans (List.map_id row)
  rw [Function.comp_apply, div_div, mul_one_div_cancel hd, div_one, id]

/-- Rows after an exchange of two rows that exist. -/
theorem getElem?_act_swap {a b : ℕ} (ha : a < rows.length) (hb : b < rows.length) (i : ℕ) :
    (act rows (.swap a b))[i]? = rows[Equiv.swap a b i]? := by
  simp only [act, List.getElem?_set, List.length_set]
  by_cases hib : b = i
  · subst hib
    simp [hb, ha, Equiv.swap_apply_right]
  · by_cases hia : a = i
    · subst hia
      simp [hib, ha, hb, Equiv.swap_apply_left]
    · rw [Equiv.swap_apply_of_ne_of_ne (Ne.symm hia) (Ne.symm hib)]
      simp [hia, hib]

/-- The inverse operation restores the rows. -/
theorem act_inverse (htouched : ∀ i ∈ op.touched, i < rows.length) (hop : op.Reversible) :
    act (act rows op) op.inverse = rows := by
  cases op with
  | swap a b =>
    have ha : a < rows.length := htouched a (by simp [touched])
    have hb : b < rows.length := htouched b (by simp [touched])
    refine List.ext_getElem? fun i => ?_
    rw [inverse, getElem?_act_swap (by rwa [length_act]) (by rwa [length_act]),
      getElem?_act_swap ha hb, Equiv.swap_apply_self]
  | divide r d =>
    rw [inverse, act, act, List.modify_modify_eq]
    exact (congrArg _ (funext (map_div_one_div hop))).trans (List.modify_id r rows)
  | subtract t s f =>
    have hsource : (act rows (.subtract t s f)).getD s [] = rows.getD s [] := by
      rw [act, List.getD_eq_getElem?_getD, List.getElem?_modify_ne _ _ hop,
        List.getD_eq_getElem?_getD]
    rw [inverse, act, hsource, act, List.modify_modify_eq]
    exact (congrArg _ (funext fun xs => subtractMultiple_neg f xs _)).trans (List.modify_id t rows)

theorem touched_inverse (op : RowOp) : op.inverse.touched = op.touched := by
  cases op <;> rfl

theorem dividesByZero_inverse (hop : op.Reversible) (rows : List (List ℚ)) :
    op.inverse.dividesByZero rows = false := by
  cases op with
  | divide r d => simp [inverse, dividesByZero, show d ≠ 0 from hop]
  | swap a b => rfl
  | subtract t s f => rfl

/-- Rows that the operation does not touch stay. -/
theorem getElem?_act_of_not_mem {i : ℕ} (hi : i ∉ op.touched) :
    (act rows op)[i]? = rows[i]? := by
  cases op with
  | swap a b =>
    simp only [touched, List.mem_cons, List.not_mem_nil, or_false, not_or] at hi
    rw [act, List.getElem?_set_ne (Ne.symm hi.2), List.getElem?_set_ne (Ne.symm hi.1)]
  | divide r d =>
    simp only [touched, List.mem_cons, List.not_mem_nil, or_false] at hi
    rw [act, List.getElem?_modify_ne _ _ (Ne.symm hi)]
  | subtract t s f =>
    simp only [touched, List.mem_cons, List.not_mem_nil, or_false, not_or] at hi
    rw [act, List.getElem?_modify_ne _ _ (Ne.symm hi.1)]

/-- **Row operations are atomic and reversible.** On any buffer an operation fails exactly with the
first of its rows that is not there, or with a divisor that is zero for a row that is not empty, and
then leaves the buffer as it was. If it succeeds, an exchange is undone by itself, a division by a
number other than zero by that by its reciprocal, and a subtraction from another row by that with
the opposite factor; and all rows that it does not touch, and their number, stay. -/
theorem perform_atomic_and_reversible (op : RowOp) (rows : List (List ℚ)) :
    (∀ e, op.apply rows = .error e ↔ Refuses rows op e) ∧
      (∀ e, op.apply rows = .error e → op.perform.run.run rows = (.error e, rows)) ∧
      ∀ rows', op.apply rows = .ok rows' →
        op.perform.run.run rows = (.ok (), rows') ∧
        (op.Reversible → op.inverse.apply rows' = .ok rows ∧
          op.inverse.perform.run.run rows' = (.ok (), rows)) ∧
        rows'.length = rows.length ∧ ∀ i, i ∉ op.touched → rows'[i]? = rows[i]? := by
  refine ⟨fun e => apply_eq_error_iff, fun e h => by rw [perform_eq, h], fun rows' h => ?_⟩
  have hperform : op.perform.run.run rows = (.ok (), rows') := by rw [perform_eq, h]
  obtain ⟨htouched, -, rfl⟩ := apply_eq_ok_iff.mp h
  refine ⟨hperform, fun hop => ?_, length_act rows op, fun i hi => getElem?_act_of_not_mem hi⟩
  have hinverse : op.inverse.apply (act rows op) = .ok rows := by
    refine apply_eq_ok_iff.mpr ⟨?_, dividesByZero_inverse hop _, act_inverse htouched hop⟩
    rwa [touched_inverse, length_act]
  exact ⟨hinverse, by rw [perform_eq, hinverse]⟩

/-- In rows of different lengths a subtraction ends with the shorter row and is undone, and a
division of a row by zero changes nothing. -/
theorem perform_atomic_and_reversible_of_ragged :
    (subtract 0 1 2).apply [[1, 2], [3]] = .ok [[-5, 2], [3]] ∧
      (subtract 0 1 2).inverse.perform.run.run [[-5, 2], [3]] = (.ok (), [[1, 2], [3]]) ∧
      (divide 1 0).apply [[1, 2], [3]] = .error .divisionByZero ∧
      (divide 1 0).perform.run.run [[1, 2], [3]] = (.error .divisionByZero, [[1, 2], [3]]) := by
  have hsubtract : (subtract 0 1 2).apply [[1, 2], [3]] = .ok [[-5, 2], [3]] := by decide +kernel
  have hdivide : (divide 1 0).apply [[1, 2], [3]] = .error .divisionByZero := by decide +kernel
  obtain ⟨-, -, hok⟩ := perform_atomic_and_reversible (subtract 0 1 2) [[1, 2], [3]]
  obtain ⟨-, hkept, -⟩ := perform_atomic_and_reversible (divide 1 0) [[1, 2], [3]]
  have hreversible : (subtract 0 1 2).Reversible := Nat.zero_ne_one
  exact ⟨hsubtract, ((hok _ hsubtract).2.1 hreversible).2, hdivide, hkept _ hdivide⟩

end ExactLinear.RowOp
