import Mathlib.LinearAlgebra.Matrix.Swap
import Mathlib.LinearAlgebra.Matrix.Transvection
import ExactLinear.Transcript
import ExactLinear.Proofs.Grid

/-!
# Row operations as invertible matrices

A row operation is `Genuine` when it exchanges two different rows, divides a row by a number other
than zero and one, or subtracts a multiple of another row. On rectangular rows a genuine operation
is accepted by `apply`, keeps the rectangle, and multiplies the grid from the left by its
`elementary` matrix, which is invertible. A list of genuine operations multiplies by the product of
its matrices.
-/

namespace ExactLinear

open RatMatrix (entryAt)

namespace RowOp

variable {n w : ℕ} {rows : List (List ℚ)}

/-- The operation is an elementary one on `n` rows, and not one without effect. -/
def Genuine (n : ℕ) : RowOp → Prop
  | .swap a b => a < n ∧ b < n ∧ a ≠ b
  | .divide row divisor => row < n ∧ divisor ≠ 0 ∧ divisor ≠ 1
  | .subtract target source factor => target < n ∧ source < n ∧ target ≠ source ∧ factor ≠ 0

/-! ## Entries after an operation -/

theorem length_subtractMultiple (f : ℚ) (xs ys : List ℚ) :
    (subtractMultiple f xs ys).length = xs.length := by
  fun_induction subtractMultiple f xs ys with
  | case1 x xs y ys ih => simp [ih]
  | case2 => rfl

/-- A subtraction acts on every entry, provided the row that is subtracted is not the longer one. -/
theorem getD_subtractMultiple (f : ℚ) {xs ys : List ℚ} (h : ys.length ≤ xs.length) (j : ℕ) :
    (subtractMultiple f xs ys).getD j 0 = xs.getD j 0 - f * ys.getD j 0 := by
  fun_induction subtractMultiple f xs ys generalizing j with
  | case1 x xs y ys ih =>
    cases j with
    | zero => rfl
    | succ j => exact ih (by simpa using h) j
  | case2 xs ys hnot =>
    cases ys with
    | nil => simp
    | cons y ys =>
      cases xs with
      | nil => simp at h
      | cons x xs => exact absurd rfl (hnot x xs y ys rfl)

theorem getD_divided (d : ℚ) (row : List ℚ) (j : ℕ) :
    (row.map (· / d)).getD j 0 = row.getD j 0 / d := by
  rw [← zero_div d, List.getD_map, zero_div]

/-- Entries after a swap of two rows that exist. -/
theorem entryAt_act_swap {a b : ℕ} (ha : a < rows.length) (hb : b < rows.length) (i j : ℕ) :
    entryAt (act rows (.swap a b)) i j = entryAt rows (Equiv.swap a b i) j := by
  simp only [act, entryAt, List.getD_eq_getElem?_getD, List.getElem?_set, List.length_set]
  by_cases hib : b = i
  · subst hib
    simp [hb, Equiv.swap_apply_right]
  · by_cases hia : a = i
    · subst hia
      simp [hib, ha, Equiv.swap_apply_left]
    · rw [Equiv.swap_apply_of_ne_of_ne (Ne.symm hia) (Ne.symm hib)]
      simp [hia, hib]

/-- Entries after a change of one row that exists. -/
theorem entryAt_modify {k : ℕ} (hk : k < rows.length) (g : List ℚ → List ℚ) (i j : ℕ) :
    entryAt (rows.modify k g) i j =
      if i = k then (g (rows.getD k [])).getD j 0 else entryAt rows i j := by
  simp only [entryAt, List.getD_eq_getElem?_getD, List.getElem?_modify]
  by_cases hik : k = i
  · subst hik
    simp [hk]
  · rw [if_neg (Ne.symm hik)]
    simp [hik]

/-- Entries after a division. -/
theorem entryAt_act_divide {r : ℕ} (hr : r < rows.length) (d : ℚ) (i j : ℕ) :
    entryAt (act rows (.divide r d)) i j =
      if i = r then entryAt rows r j / d else entryAt rows i j := by
  rw [act, entryAt_modify hr, getD_divided]
  rfl

/-- Entries after a subtraction. -/
theorem entryAt_act_subtract (h : Rectangular n w rows) {t : ℕ} (ht : t < n) (s : ℕ) (f : ℚ)
    (i j : ℕ) :
    entryAt (act rows (.subtract t s f)) i j =
      if i = t then entryAt rows t j - f * entryAt rows s j else entryAt rows i j := by
  have hle : (rows.getD s []).length ≤ (rows.getD t []).length := by
    rw [h.length_getD ht]
    exact h.length_getD_le s
  rw [act, entryAt_modify (h.length_eq.symm ▸ ht), getD_subtractMultiple f hle]
  rfl

/-! ## Rectangles stay rectangles -/

theorem length_act (rows : List (List ℚ)) (op : RowOp) : (act rows op).length = rows.length := by
  cases op <;> simp [act]

/-- A genuine operation keeps the rectangle. -/
theorem Genuine.rectangular {op : RowOp} (hop : op.Genuine n) (h : Rectangular n w rows) :
    Rectangular n w (act rows op) := by
  refine ⟨(length_act rows op).trans h.length_eq, fun row hrow => ?_⟩
  cases op with
  | swap a b =>
    obtain ⟨ha, hb, -⟩ := hop
    rcases List.mem_or_eq_of_mem_set hrow with hrow | rfl
    · rcases List.mem_or_eq_of_mem_set hrow with hrow | rfl
      · exact h.row_length row hrow
      · exact h.length_getD hb
    · exact h.length_getD ha
  | divide r d =>
    obtain ⟨i, hi, rfl⟩ := List.mem_iff_getElem.mp hrow
    have hi' : i < rows.length := by simpa [act] using hi
    simp only [act, List.getElem_modify]
    split_ifs
    · rw [List.length_map]
      exact h.row_length _ (List.getElem_mem hi')
    · exact h.row_length _ (List.getElem_mem hi')
  | subtract t s f =>
    obtain ⟨i, hi, rfl⟩ := List.mem_iff_getElem.mp hrow
    have hi' : i < rows.length := by simpa [act] using hi
    simp only [act, List.getElem_modify]
    split_ifs
    · rw [length_subtractMultiple]
      exact h.row_length _ (List.getElem_mem hi')
    · exact h.row_length _ (List.getElem_mem hi')

/-- A genuine operation is accepted by `apply`, which then does what `act` does. -/
theorem Genuine.apply_eq {op : RowOp} (hop : op.Genuine n) (hlen : rows.length = n) :
    op.apply rows = .ok (act rows op) := by
  have hfind : op.touched.find? (rows.length ≤ ·) = none := by
    rw [List.find?_eq_none, hlen]
    intro i hi
    cases op <;> simp only [touched, List.mem_cons, List.not_mem_nil, or_false] at hi <;>
      simp only [Genuine] at hop <;> simp only [decide_eq_true_eq, not_le] <;> omega
  -- both checks pass: the rows exist, and the divisor is not zero
  have hdiv : op.dividesByZero rows = false := by
    cases op with
    | divide r d => simp [dividesByZero, hop.2.1]
    | _ => rfl
  rw [apply, hfind]
  simp [hdiv]

/-! ## Elementary matrices -/

/-- The matrix by which an operation on `n` rows multiplies from the left. -/
def elementary (n : ℕ) : RowOp → Matrix (Fin n) (Fin n) ℚ
  | .swap a b => if h : a < n ∧ b < n then Matrix.swap ℚ ⟨a, h.1⟩ ⟨b, h.2⟩ else 1
  | .divide row divisor => Matrix.diagonal fun i => if i.val = row then divisor⁻¹ else 1
  | .subtract target source factor =>
    if h : target < n ∧ source < n then
      Matrix.transvection ⟨target, h.1⟩ ⟨source, h.2⟩ (-factor)
    else 1

/-- On the grid a genuine operation is the multiplication by its matrix. -/
theorem Genuine.grid_act {op : RowOp} (hop : op.Genuine n) (h : Rectangular n w rows) :
    grid n w (act rows op) = elementary n op * grid n w rows := by
  ext i j
  cases op with
  | swap a b =>
    obtain ⟨ha, hb, -⟩ := hop
    have hlen := h.length_eq.symm
    rw [grid_apply, entryAt_act_swap (hlen ▸ ha) (hlen ▸ hb), elementary, dif_pos ⟨ha, hb⟩,
      Matrix.swap, PEquiv.toMatrix_toPEquiv_mul, Matrix.submatrix_apply, grid_apply, id,
      Fin.val_injective.map_swap]
  | divide r d =>
    rw [grid_apply, entryAt_act_divide (h.length_eq.symm ▸ hop.1), elementary,
      Matrix.diagonal_mul, grid_apply]
    split_ifs with hi
    · rw [hi, div_eq_inv_mul]
    · rw [one_mul]
  | subtract t s f =>
    obtain ⟨ht, hs, -⟩ := hop
    rw [grid_apply, entryAt_act_subtract h ht, elementary, dif_pos ⟨ht, hs⟩]
    by_cases hi : i = ⟨t, ht⟩
    · subst hi
      rw [Matrix.transvection_mul_apply_same, if_pos rfl, grid_apply, grid_apply]
      ring
    · rw [Matrix.transvection_mul_apply_of_ne _ _ _ _ hi, grid_apply,
        if_neg (fun h' => hi (Fin.ext h'))]

theorem det_elementary_swap {a b : ℕ} (ha : a < n) (hb : b < n) (hab : a ≠ b) :
    (elementary n (.swap a b)).det = -1 := by
  have hne : (⟨a, ha⟩ : Fin n) ≠ ⟨b, hb⟩ := fun h => hab (congrArg Fin.val h)
  rw [elementary, dif_pos ⟨ha, hb⟩, Matrix.swap, Matrix.det_permutation, Equiv.Perm.sign_swap hne]
  rfl

theorem det_elementary_divide {r : ℕ} (hr : r < n) (d : ℚ) :
    (elementary n (.divide r d)).det = d⁻¹ := by
  rw [elementary, Matrix.det_diagonal, Finset.prod_eq_single ⟨r, hr⟩]
  · exact if_pos rfl
  · exact fun i _ hi => if_neg fun h => hi (Fin.ext h)
  · exact fun h => absurd (Finset.mem_univ _) h

theorem det_elementary_subtract {t s : ℕ} (ht : t < n) (hs : s < n) (hts : t ≠ s) (f : ℚ) :
    (elementary n (.subtract t s f)).det = 1 := by
  rw [elementary, dif_pos ⟨ht, hs⟩]
  exact Matrix.det_transvection_of_ne _ _ (fun h => hts (congrArg Fin.val h)) _

theorem Genuine.det_elementary_ne_zero {op : RowOp} (hop : op.Genuine n) :
    (elementary n op).det ≠ 0 := by
  cases op with
  | swap a b =>
    rw [det_elementary_swap hop.1 hop.2.1 hop.2.2]
    norm_num
  | divide r d =>
    rw [det_elementary_divide hop.1]
    exact inv_ne_zero hop.2.1
  | subtract t s f =>
    rw [det_elementary_subtract hop.1 hop.2.1 hop.2.2.1]
    exact one_ne_zero

/-! ## Lists of operations -/

@[simp] theorem actAll_nil (rows : List (List ℚ)) : actAll rows [] = rows := rfl

@[simp] theorem actAll_cons (rows : List (List ℚ)) (op : RowOp) (ops : List RowOp) :
    actAll rows (op :: ops) = actAll (act rows op) ops := rfl

theorem actAll_append (rows : List (List ℚ)) (ops ops' : List RowOp) :
    actAll rows (ops ++ ops') = actAll (actAll rows ops) ops' :=
  List.foldl_append

/-- All operations of the list are genuine on `n` rows. -/
def AllGenuine (n : ℕ) (ops : List RowOp) : Prop := ∀ op ∈ ops, op.Genuine n

namespace AllGenuine

variable {op : RowOp} {ops ops' : List RowOp}

theorem nil (n : ℕ) : AllGenuine n [] := List.forall_mem_nil _

theorem append (h : AllGenuine n ops) (h' : AllGenuine n ops') : AllGenuine n (ops ++ ops') :=
  List.forall_mem_append.mpr ⟨h, h'⟩

theorem rectangular (hops : AllGenuine n ops) (h : Rectangular n w rows) :
    Rectangular n w (actAll rows ops) := by
  induction ops generalizing rows with
  | nil => exact h
  | cons op ops ih =>
    obtain ⟨hop, hops⟩ := List.forall_mem_cons.mp hops
    exact ih hops (hop.rectangular h)

/-- Genuine operations are accepted one after the other. -/
theorem foldlM_apply (hops : AllGenuine n ops) (h : Rectangular n w rows) :
    ops.foldlM (fun rows op => op.apply rows) rows = .ok (actAll rows ops) := by
  induction ops generalizing rows with
  | nil => rfl
  | cons op ops ih =>
    obtain ⟨hop, hops⟩ := List.forall_mem_cons.mp hops
    rw [List.foldlM_cons, hop.apply_eq h.length_eq]
    exact ih hops (hop.rectangular h)

end AllGenuine

/-- The matrix by which a list of operations multiplies from the left; the first operation is the
factor on the right. -/
def elementaryAll (n : ℕ) : List RowOp → Matrix (Fin n) (Fin n) ℚ
  | [] => 1
  | op :: ops => elementaryAll n ops * elementary n op

/-- On the grid a list of genuine operations is the multiplication by its matrix. -/
theorem AllGenuine.grid_actAll {ops : List RowOp} (hops : AllGenuine n ops)
    (h : Rectangular n w rows) :
    grid n w (actAll rows ops) = elementaryAll n ops * grid n w rows := by
  induction ops generalizing rows with
  | nil => rw [actAll_nil, elementaryAll, Matrix.one_mul]
  | cons op ops ih =>
    obtain ⟨hop, hops⟩ := List.forall_mem_cons.mp hops
    rw [actAll_cons, ih hops (hop.rectangular h), hop.grid_act h, elementaryAll, Matrix.mul_assoc]

theorem AllGenuine.isUnit_elementaryAll {ops : List RowOp} (hops : AllGenuine n ops) :
    IsUnit (elementaryAll n ops) := by
  induction ops with
  | nil => exact isUnit_one
  | cons op ops ih =>
    obtain ⟨hop, hops⟩ := List.forall_mem_cons.mp hops
    refine (ih hops).mul ?_
    exact (Matrix.isUnit_iff_isUnit_det _).mpr hop.det_elementary_ne_zero.isUnit

end RowOp

/-! ## Replay -/

/-- A transcript whose operations are genuine is replayed to what they make of the rows. -/
theorem Transcript.replay_eq {t : Transcript} {m : RatMatrix} (hm : m.WellFormed)
    (hops : RowOp.AllGenuine m.shape.rows t.operations) :
    t.replay m = .ok { m with rows := RowOp.actAll m.rows t.operations } := by
  have hrect := hops.rectangular hm.rectangular
  rw [replay, hops.foldlM_apply hm.rectangular]
  exact hrect.ofRows_eq hm.1 hm.2.1 m.augmented

end ExactLinear
