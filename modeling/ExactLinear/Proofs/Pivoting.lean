import Mathlib.Algebra.Order.Field.Rat
import Mathlib.Tactic.Linarith
import ExactLinear.Reduction
import ExactLinear.Proofs.RowOp

/-!
# Pivoting

What the pieces of an elimination do to the entries: `pivotRow?` finds a row with an entry other
than zero exactly when there is one, a list of `subtractions` from different rows acts on each of
them alone, and the operations for one pivot leave a one with zeros below it. All these operations
are genuine.
-/

namespace ExactLinear

open RatMatrix (entryAt pivotRow?)
open RowOp

/-! ## The pivot row -/

/-- Keeping the larger of two candidates, from the first to the last, ends with a largest one. -/
theorem foldl_argmax (f : ℕ → ℚ) (start : ℕ) (l : List ℕ) :
    l.foldl (fun p i => if f p < f i then i else p) start ∈ start :: l ∧
      ∀ i ∈ start :: l, f i ≤ f (l.foldl (fun p i => if f p < f i then i else p) start) := by
  induction l generalizing start with
  | nil => simp
  | cons x l ih =>
    obtain ⟨hmem, hmax⟩ := ih (if f start < f x then x else start)
    rw [List.foldl_cons]
    -- the candidate that is kept is not smaller than the one that is dropped
    have hstep : f start ≤ f (if f start < f x then x else start) ∧
        f x ≤ f (if f start < f x then x else start) := by
      split_ifs with hlt
      · exact ⟨hlt.le, le_rfl⟩
      · exact ⟨le_rfl, not_lt.mp hlt⟩
    have hnext := hmax _ List.mem_cons_self
    refine ⟨?_, fun i hi => ?_⟩
    · rcases List.mem_cons.mp hmem with heq | hl
      · rw [heq]
        split_ifs <;> simp
      · exact List.mem_cons_of_mem _ (List.mem_cons_of_mem _ hl)
    · rcases List.mem_cons.mp hi with rfl | hi
      · exact hstep.1.trans hnext
      · rcases List.mem_cons.mp hi with rfl | hi
        · exact hstep.2.trans hnext
        · exact hmax i (List.mem_cons_of_mem _ hi)

/-- Without a pivot row the column is zero from row `r` downwards. -/
theorem entryAt_eq_zero_of_pivotRow?_eq_none {rows : List (List ℚ)} {r j : ℕ}
    (h : pivotRow? rows r j = none) {i : ℕ} (hi : r ≤ i) : entryAt rows i j = 0 := by
  by_contra hne
  have hlen := lt_length_of_entryAt_ne_zero hne
  have hmax := (foldl_argmax (fun i => (entryAt rows i j).abs) r
    (List.range' (r + 1) (rows.length - (r + 1)))).2 i
      (by rw [List.mem_cons, List.mem_range'_1]; omega)
  simp only [pivotRow?, ite_eq_left_iff, reduceCtorEq, imp_false, not_not] at h
  simp only [h, Rat.abs_zero] at hmax
  exact (Rat.abs_pos_iff.mpr hne).not_ge hmax

/-- A pivot row stands at or below row `r` and has an entry other than zero in the column. -/
theorem pivotRow?_spec {rows : List (List ℚ)} {r j p : ℕ} (h : pivotRow? rows r j = some p) :
    r ≤ p ∧ p < rows.length ∧ entryAt rows p j ≠ 0 := by
  have hmem := (foldl_argmax (fun i => (entryAt rows i j).abs) r
    (List.range' (r + 1) (rows.length - (r + 1)))).1
  simp only [pivotRow?] at h
  split at h
  · simp at h
  · rename_i hne
    obtain rfl := Option.some.inj h
    refine ⟨?_, lt_length_of_entryAt_ne_zero hne, hne⟩
    rw [List.mem_cons, List.mem_range'_1] at hmem
    omega

/-! ## Subtractions -/

/-- The numbers of the rows below row `r`. -/
theorem Rectangular.mem_rowsBelow_iff {n w r k : ℕ} {rows : List (List ℚ)}
    (h : Rectangular n w rows) :
    k ∈ List.range' (r + 1) (rows.length - (r + 1)) ↔ r < k ∧ k < n := by
  rw [List.mem_range'_1, h.length_eq]
  omega

/-- The subtractions of `f k` times row `s` from each target row `k`; a target whose multiple is
zero is passed over. -/
def subtractions (s : ℕ) (f : ℕ → ℚ) (targets : List ℕ) : List RowOp :=
  targets.filterMap fun k => if f k = 0 then none else some (.subtract k s (f k))

theorem clearing_eq_subtractions (rows : List (List ℚ)) (pivot c : ℕ) (targets : List ℕ) :
    Reduction.clearing rows pivot c targets =
      subtractions pivot (fun k => entryAt rows k c) targets := rfl

theorem subtractions_congr {s : ℕ} {f g : ℕ → ℚ} {targets : List ℕ}
    (h : ∀ k ∈ targets, f k = g k) : subtractions s f targets = subtractions s g targets :=
  List.filterMap_congr fun k hk => by rw [h k hk]

variable {n w : ℕ} {rows : List (List ℚ)}

theorem allGenuine_subtractions {s : ℕ} (hs : s < n) (f : ℕ → ℚ) {targets : List ℕ}
    (htargets : ∀ k ∈ targets, k < n ∧ k ≠ s) : AllGenuine n (subtractions s f targets) := by
  intro op hop
  obtain ⟨k, hk, hop⟩ := List.mem_filterMap.mp hop
  split_ifs at hop with hf
  obtain rfl := Option.some.inj hop
  exact ⟨(htargets k hk).1, hs, (htargets k hk).2, hf⟩

/-- Subtractions from different rows act on each of these rows alone. -/
theorem entryAt_subtractions (h : Rectangular n w rows) {s : ℕ} (hs : s < n) (f : ℕ → ℚ)
    {targets : List ℕ} (htargets : ∀ k ∈ targets, k < n ∧ k ≠ s) (hnodup : targets.Nodup)
    (i j : ℕ) :
    entryAt (actAll rows (subtractions s f targets)) i j =
      if i ∈ targets then entryAt rows i j - f i * entryAt rows s j else entryAt rows i j := by
  induction targets generalizing rows with
  | nil => rfl
  | cons k targets ih =>
    obtain ⟨⟨hk, hks⟩, hrest⟩ := List.forall_mem_cons.mp htargets
    obtain ⟨hnot, hnodup⟩ := List.nodup_cons.mp hnodup
    by_cases hf : f k = 0
    · have hskip : subtractions s f (k :: targets) = subtractions s f targets := by
        simp [subtractions, hf]
      rw [hskip, ih h hrest hnodup]
      by_cases hik : i = k
      · subst hik
        simp [hnot, hf]
      · simp [hik]
    · have htake : subtractions s f (k :: targets) =
          .subtract k s (f k) :: subtractions s f targets := by
        simp [subtractions, hf]
      have hgen : (RowOp.subtract k s (f k)).Genuine n := ⟨hk, hs, hks, hf⟩
      rw [htake, actAll_cons, ih (hgen.rectangular h) hrest hnodup]
      simp only [entryAt_act_subtract h hk, if_neg (Ne.symm hks)]
      by_cases hik : i = k
      · subst hik
        simp [hnot]
      · simp [hik]

/-! ## The operations for one pivot -/

theorem allGenuine_exchange {r p : ℕ} (hr : r < n) (hp : p < n) :
    AllGenuine n (if p = r then [] else [.swap r p]) := by
  split_ifs with hpr
  · exact AllGenuine.nil n
  · exact List.forall_mem_singleton.mpr ⟨hr, hp, Ne.symm hpr⟩

/-- Row `p` comes up to row `r`, if it is not there already. -/
theorem entryAt_exchange (h : Rectangular n w rows) {r p : ℕ} (hr : r < n) (hp : p < n)
    (i j : ℕ) :
    entryAt (actAll rows (if p = r then [] else [.swap r p])) i j =
      entryAt rows (Equiv.swap r p i) j := by
  split_ifs with hpr
  · rw [hpr, Equiv.swap_self, actAll_nil, Equiv.refl_apply]
  · exact entryAt_act_swap (h.length_eq.symm ▸ hr) (h.length_eq.symm ▸ hp) i j

theorem allGenuine_division {r : ℕ} (hr : r < n) {d : ℚ} (hd : d ≠ 0) :
    AllGenuine n (if d = 1 then [] else [.divide r d]) := by
  split_ifs with hone
  · exact AllGenuine.nil n
  · exact List.forall_mem_singleton.mpr ⟨hr, hd, hone⟩

/-- Row `r` is divided, if the divisor is not one. -/
theorem entryAt_division (h : Rectangular n w rows) {r : ℕ} (hr : r < n) (d : ℚ) (i j : ℕ) :
    entryAt (actAll rows (if d = 1 then [] else [.divide r d])) i j =
      if i = r then entryAt rows r j / d else entryAt rows i j := by
  by_cases hd : d = 1
  · rw [if_pos hd, hd, actAll_nil, div_one]
    split_ifs with hi
    · rw [hi]
    · rfl
  · rw [if_neg hd]
    exact entryAt_act_divide (h.length_eq.symm ▸ hr) d i j

/-- The operations for one pivot before its column is cleared: row `p` comes up to row `r`, and is
divided by its entry in column `j`. -/
def raiseOps (rows : List (List ℚ)) (r p j : ℕ) : List RowOp :=
  let exchange := if p = r then [] else [RowOp.swap r p]
  let pivot := entryAt (actAll rows exchange) r j
  exchange ++ if pivot = 1 then [] else [RowOp.divide r pivot]

theorem pivotOps_eq (rows : List (List ℚ)) (r p j : ℕ) :
    Reduction.pivotOps rows r p j = raiseOps rows r p j ++
      subtractions r (fun k => entryAt (actAll rows (raiseOps rows r p j)) k j)
        (List.range' (r + 1) (rows.length - (r + 1))) := by
  unfold Reduction.pivotOps raiseOps
  simp only [actAll_append]
  rfl

/-- Raising a pivot performs genuine operations, puts the divided pivot row in row `r`, and leaves
the other rows where the exchange has brought them. -/
theorem raiseOps_spec (h : Rectangular n w rows) {r p j : ℕ} (hr : r < n) (hp : p < n)
    (hpivot : entryAt rows p j ≠ 0) :
    AllGenuine n (raiseOps rows r p j) ∧
      ∀ i c, entryAt (actAll rows (raiseOps rows r p j)) i c =
        if i = r then entryAt rows p c / entryAt rows p j
        else entryAt rows (Equiv.swap r p i) c := by
  have hgen := allGenuine_exchange hr hp
  have hrect := hgen.rectangular h
  have hexchange := entryAt_exchange h hr hp
  have hpivoteq : entryAt (actAll rows (if p = r then [] else [.swap r p])) r j =
      entryAt rows p j := by
    rw [hexchange, Equiv.swap_apply_left]
  unfold raiseOps
  simp only [hpivoteq]
  refine ⟨hgen.append (allGenuine_division hr hpivot), fun i c => ?_⟩
  rw [actAll_append, entryAt_division hrect hr, hexchange, hexchange, Equiv.swap_apply_left]

/-- The operations for one pivot are genuine. Row `r` becomes the pivot row divided by its pivot,
the rows above stay, and from each row below its multiple of the new row `r` is subtracted. -/
theorem pivotOps_spec (h : Rectangular n w rows) {r p j : ℕ} (hrp : r ≤ p) (hp : p < n)
    (hpivot : entryAt rows p j ≠ 0) :
    AllGenuine n (Reduction.pivotOps rows r p j) ∧
      ∀ i c, entryAt (actAll rows (Reduction.pivotOps rows r p j)) i c =
        if i < r then entryAt rows i c
        else if i = r then entryAt rows p c / entryAt rows p j
        else entryAt rows (Equiv.swap r p i) c -
          entryAt rows (Equiv.swap r p i) j * (entryAt rows p c / entryAt rows p j) := by
  have hr : r < n := by omega
  obtain ⟨hgen, hraised⟩ := raiseOps_spec h hr hp hpivot
  have htargets : ∀ k ∈ List.range' (r + 1) (rows.length - (r + 1)), k < n ∧ k ≠ r :=
    fun k hk => ⟨(h.mem_rowsBelow_iff.mp hk).2, (h.mem_rowsBelow_iff.mp hk).1.ne'⟩
  rw [pivotOps_eq]
  refine ⟨hgen.append (allGenuine_subtractions hr _ htargets), fun i c => ?_⟩
  rw [actAll_append, entryAt_subtractions (hgen.rectangular h) hr _ htargets List.nodup_range']
  simp only [h.mem_rowsBelow_iff, hraised]
  rcases lt_trichotomy i r with hi | rfl | hi
  · rw [if_neg (by omega), if_neg hi.ne, if_pos hi,
      Equiv.swap_apply_of_ne_of_ne hi.ne (by omega)]
  · rw [if_neg (by omega), if_pos rfl, if_neg (lt_irrefl i), if_pos rfl]
  · simp only [if_neg hi.ne', if_neg hi.not_gt, if_true]
    -- a row past the end is no target, but reads as zero on both sides
    by_cases hin : i < n
    · rw [if_pos ⟨hi, hin⟩]
    · rw [if_neg (by omega), Equiv.swap_apply_of_ne_of_ne hi.ne' (by omega),
        h.entryAt_of_rows_le (by omega), h.entryAt_of_rows_le (by omega)]
      ring

end ExactLinear
