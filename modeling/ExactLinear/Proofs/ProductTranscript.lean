import ExactLinear.Worked.Matrices
import ExactLinear.Proofs.Representation
import ExactLinear.Proofs.TextParts

/-!
# The notes on a product

A worked product notes for every position the sum of products that the entry is
(`notes_multiplyMatrices`). A note starts with the position, its two numbers side by side. A number
from 1 to 10 can be told from what stands before or behind it, as no position has a zero; where both
numbers are larger, they run into each other: `111` is position (1, 11) and (11, 1). So the notes
have different labels exactly when the product has at most ten rows or at most ten columns
(`nodup_labels_iff`).
-/

namespace ExactLinear

open RatMatrix

variable {m p : ℕ}

/-! ## Two numbers side by side -/

/-- Another digit behind a number. -/
theorem digits_append_digits {a b : ℕ} (ha : 0 < a) (hb : b < 10) :
    digits a ++ digits b = digits (10 * a + b) :=
  Nat.toDigits_append_toDigits (by decide) ha hb

theorem digits_append_ten {a : ℕ} (ha : 0 < a) :
    digits a ++ digits 10 = digits (100 * a + 10) := by
  have hten : digits 10 = digits 1 ++ digits 0 := rfl
  rw [hten, ← List.append_assoc, digits_append_digits ha (by decide),
    digits_append_digits (by omega) (by decide)]
  congr 1
  omega

variable {a a' b b' : ℕ}

/-- A second number up to ten can be told from the first. -/
theorem eq_of_digits_append_eq_of_back_le (ha : 0 < a) (ha' : 0 < a') (hb : 0 < b) (hb' : 0 < b')
    (hble : b ≤ 10) (hble' : b' ≤ 10) (h : digits a ++ digits b = digits a' ++ digits b') :
    a = a' ∧ b = b' := by
  obtain hlt | rfl := hble.lt_or_eq
  · obtain hlt' | rfl := hble'.lt_or_eq
    · rw [digits_append_digits ha hlt, digits_append_digits ha' hlt'] at h
      have := digits_injective h
      omega
    · rw [digits_append_digits ha hlt, digits_append_ten ha'] at h
      have := digits_injective h
      omega
  · obtain hlt' | rfl := hble'.lt_or_eq
    · rw [digits_append_ten ha, digits_append_digits ha' hlt'] at h
      have := digits_injective h
      omega
    · exact ⟨digits_injective (List.append_cancel_right h), rfl⟩

/-- No number from 1 to 9 starts as 10 does, as what comes behind does not start with a zero. -/
theorem digits_ten_append_ne {rest : List Char} (ha : a < 10) (hb : 0 < b) :
    digits 10 ++ rest ≠ digits a ++ digits b := by
  intro h
  rw [digits_of_lt ha] at h
  have hrest : '0' :: rest = digits b := (List.cons.inj h).2
  exact hb.ne' (eq_zero_of_head?_digits (by rw [← hrest, List.head?_cons]))

/-- A first number up to ten can be told from the second. -/
theorem eq_of_digits_append_eq_of_front_le (hb : 0 < b) (hb' : 0 < b') (hale : a ≤ 10)
    (hale' : a' ≤ 10) (h : digits a ++ digits b = digits a' ++ digits b') : a = a' ∧ b = b' := by
  obtain hlt | rfl := hale.lt_or_eq
  · obtain hlt' | rfl := hale'.lt_or_eq
    · have hlength : (digits a).length = (digits a').length := by
        rw [digits_of_lt hlt, digits_of_lt hlt']
        rfl
      obtain ⟨hfront, hback⟩ := List.append_inj h hlength
      exact ⟨digits_injective hfront, digits_injective hback⟩
    · exact absurd h.symm (digits_ten_append_ne hlt hb)
  · obtain hlt' | rfl := hale'.lt_or_eq
    · exact absurd h (digits_ten_append_ne hlt' hb')
    · exact ⟨rfl, digits_injective (List.append_cancel_left h)⟩

/-! ## Notes -/

/-- The notes of a transcript, in order. -/
def Transcript.notes (t : Transcript) : List String :=
  t.filterMap fun
    | .note text => some text
    | _ => none

theorem Transcript.notes_append (t u : Transcript) : notes (t ++ u) = t.notes ++ u.notes :=
  List.filterMap_append

theorem Transcript.notes_map_note {α : Type} (f : α → String) (l : List α) :
    notes (l.map fun x => .note (f x)) = l.map f := by
  rw [notes, List.filterMap_map]
  exact congrFun List.filterMap_eq_map l

/-- What a note says before its first equality sign. -/
def noteLabel (note : String) : List Char := note.toList.takeWhile (· ≠ '=')

namespace Worked

/-- The note on entry `(i, j)` of the product `C` of `A`, which has `k` columns, and `B`: the `k`
pairs of factors in order, and the value. -/
def entryNote (k : ℕ) (A B C : List (List ℚ)) (i j : ℕ) : String :=
  "c_" ++ toString (i + 1) ++ toString (j + 1) ++ " = "
    ++ " + ".intercalate ((List.range k).map fun t =>
        factorText (entryAt A i t) ++ factorText (entryAt B t j))
    ++ " = " ++ Literal.write (entryAt C i j)

theorem noteLabel_entryNote (k : ℕ) (A B C : List (List ℚ)) (i j : ℕ) :
    noteLabel (entryNote k A B C i j) =
      'c' :: '_' :: (digits (i + 1) ++ (digits (j + 1) ++ [' '])) := by
  obtain ⟨rest, hnote⟩ : ∃ rest, (entryNote k A B C i j).toList =
      'c' :: '_' :: (digits (i + 1) ++ (digits (j + 1) ++ [' '])) ++ '=' :: rest := by
    unfold entryNote
    simp only [String.toList_append, toList_toString_nat, List.append_assoc, List.cons_append]
    exact ⟨_, rfl⟩
  have hdigit : ∀ n, ∀ c ∈ digits n, c ≠ '=' := fun n c hc heq =>
    absurd (isDigit_of_mem_digits hc) (heq ▸ by decide)
  have hend : Ends (· ≠ '=') ('=' :: rest) := .cons (by decide) rest
  rw [noteLabel, hnote]
  refine hend.takeWhile_append fun c hc => decide_eq_true ?_
  simp only [List.mem_cons, List.mem_append, List.not_mem_nil, or_false] at hc
  obtain rfl | rfl | hc | hc | rfl := hc
  · decide
  · decide
  · exact hdigit _ c hc
  · exact hdigit _ c hc
  · decide

/-- The labels of all positions are different when the product has at most ten rows or at most ten
columns, and only then. -/
theorem nodup_labels_iff (k : ℕ) (A B C : List (List ℚ)) :
    (((List.range m ×ˢ List.range p).map fun q => entryNote k A B C q.1 q.2).map noteLabel).Nodup ↔
      m ≤ 10 ∨ p ≤ 10 := by
  have hlabel : ∀ i j i' j', noteLabel (entryNote k A B C i j) =
      noteLabel (entryNote k A B C i' j') ↔
        digits (i + 1) ++ digits (j + 1) = digits (i' + 1) ++ digits (j' + 1) := by
    intro i j i' j'
    rw [noteLabel_entryNote, noteLabel_entryNote, List.cons_inj_right, List.cons_inj_right,
      ← List.append_assoc, ← List.append_assoc, List.append_left_inj]
  rw [List.map_map, Function.comp_def,
    List.nodup_map_iff_inj_on (List.nodup_range.product List.nodup_range)]
  constructor
  · intro hinj
    by_contra hlarge
    -- positions (1, 11) and (11, 1)
    have hmem : ((0, 10) : ℕ × ℕ) ∈ List.range m ×ˢ List.range p := by simp; omega
    have hmem' : ((10, 0) : ℕ × ℕ) ∈ List.range m ×ˢ List.range p := by simp; omega
    exact absurd (hinj _ hmem _ hmem' ((hlabel 0 10 10 0).mpr rfl)) (by decide)
  · rintro hsmall ⟨i, j⟩ hq ⟨i', j'⟩ hq' heq
    simp only [List.mem_product, List.mem_range] at hq hq'
    have hdigits := (hlabel i j i' j').mp heq
    obtain ⟨hi, hj⟩ : i + 1 = i' + 1 ∧ j + 1 = j' + 1 := by
      obtain hm | hp := hsmall
      · exact eq_of_digits_append_eq_of_front_le j.succ_pos j'.succ_pos (by omega) (by omega)
          hdigits
      · exact eq_of_digits_append_eq_of_back_le i.succ_pos i'.succ_pos j.succ_pos j'.succ_pos
          (by omega) (by omega) hdigits
    rw [Nat.succ_injective hi, Nat.succ_injective hj]

/-! ## The notes on a product -/

theorem map_getD_range {k : ℕ} {l : List ℚ} (h : l.length = k) :
    (List.range k).map (fun t => l.getD t 0) = l := by
  refine eq_of_getD_eq (by simp) h fun t ht => ?_
  rw [getD_map_range _ _ ht]

/-- The entries of a row and a column, in the order in which a note lists them. -/
theorem productNote_eq {a b c : RatMatrix} {k : ℕ} (ha : Rectangular m k a.rows)
    (hb : Rectangular k p b.rows) {i : ℕ} (hi : i < m) (j : ℕ) :
    productNote a b c i j = entryNote k a.rows b.rows c.rows i j := by
  have hcolumn : ∀ t, (b.column j).getD t 0 = entryAt b.rows t j :=
    fun t => List.getD_map b.rows [] fun row => row.getD j 0
  have hlength : (b.column j).length = k := by rw [column, List.length_map, hb.length_eq]
  rw [productNote, productsText, ← map_getD_range (ha.length_getD hi), ← map_getD_range hlength,
    List.zipWith_map, List.zipWith_self, entryNote]
  simp only [hcolumn, entryAt]

theorem notes_multiplyMatrices {a b : Named RatMatrix} {c : RatMatrix}
    (hc : a.value.mul b.value = .ok c) (ha : a.value.WellFormed) (hb : b.value.WellFormed)
    (hab : a.value.shape.cols = b.value.shape.rows) :
    ∃ o, multiplyMatrices a b = .ok o ∧
      o.transcript.notes =
        (List.range a.value.shape.rows ×ˢ List.range b.value.shape.cols).map fun q =>
          entryNote a.value.shape.cols a.value.rows b.value.rows c.rows q.1 q.2 := by
  have hentries : ((List.range a.value.shape.rows).flatMap fun i =>
      (List.range b.value.shape.cols).map fun j => Entry.note (productNote a.value b.value c i j)) =
      (List.range a.value.shape.rows ×ˢ List.range b.value.shape.cols).map fun q =>
        Entry.note (entryNote a.value.shape.cols a.value.rows b.value.rows c.rows q.1 q.2) := by
    have hpositions : List.range a.value.shape.rows ×ˢ List.range b.value.shape.cols =
        (List.range a.value.shape.rows).flatMap fun i =>
          (List.range b.value.shape.cols).map (Prod.mk i) := rfl
    rw [hpositions, List.map_flatMap]
    refine List.flatMap_congr fun i hi => ?_
    rw [List.map_map]
    refine List.map_congr_left fun j _ => congrArg Entry.note ?_
    exact productNote_eq ha.rectangular (hab ▸ hb.rectangular) (List.mem_range.mp hi) j
  refine ⟨_, by rw [multiplyMatrices, hc]; rfl, ?_⟩
  rw [matrixOutcome, hentries, Transcript.notes_append, Transcript.notes_append,
    Transcript.notes_map_note]
  exact List.append_nil _

/-- **The notes on a product.** For matrices that fit, the transcript of the product has a note for
each position, row by row, and no other notes. The note on a position lists the pairs of factors in
order and ends with the value of the entry, which is the sum of their products. The labels of the
notes are different exactly when the product has at most ten rows or at most ten columns. -/
theorem multiplyMatrices_notes_every_entry (a b : Named RatMatrix) (ha : a.value.WellFormed)
    (hb : b.value.WellFormed) (hab : a.value.shape.cols = b.value.shape.rows) :
    ∃ c o, a.value.mul b.value = .ok c ∧ multiplyMatrices a b = .ok o ∧
      o.transcript.notes.length = a.value.shape.rows * b.value.shape.cols ∧
      o.transcript.notes =
        (List.range a.value.shape.rows ×ˢ List.range b.value.shape.cols).map (fun q =>
          entryNote a.value.shape.cols a.value.rows b.value.rows c.rows q.1 q.2) ∧
      (∀ i < a.value.shape.rows, ∀ j < b.value.shape.cols, entryAt c.rows i j =
        ∑ t ∈ Finset.range a.value.shape.cols,
          entryAt a.value.rows i t * entryAt b.value.rows t j) ∧
      ((o.transcript.notes.map noteLabel).Nodup ↔
        a.value.shape.rows ≤ 10 ∨ b.value.shape.cols ≤ 10) := by
  have hb' := hb.represents_of_shape_eq (n := a.value.shape.cols) (w := b.value.shape.cols)
    (by rw [hab])
  obtain ⟨c, hc, hrep, -⟩ := ha.represents.mul hb'
  obtain ⟨o, ho, hnotes⟩ := notes_multiplyMatrices hc ha hb hab
  refine ⟨c, o, hc, ho, ?_, hnotes, fun i hi j hj => ?_, ?_⟩
  · rw [hnotes, List.length_map, List.length_product, List.length_range, List.length_range]
  · rw [hrep.entryAt_eq ⟨i, hi⟩ ⟨j, hj⟩, Matrix.mul_apply, Finset.sum_range]
    rfl
  · rw [hnotes]
    exact nodup_labels_iff a.value.shape.cols a.value.rows b.value.rows c.rows

/-- The only entry of a row times a column. -/
theorem multiplyMatrices_notes_every_entry_of_row_times_column :
    let a : Named RatMatrix := ⟨"A", ⟨⟨1, 2⟩, [[1, -1 / 2]], false⟩⟩
    let b : Named RatMatrix := ⟨"B", ⟨⟨2, 1⟩, [[3], [4]], false⟩⟩
    ∃ o, multiplyMatrices a b = .ok o ∧ o.transcript.notes = ["c_11 = (1)(3) + (-1/2)(4) = 1"] := by
  intro a b
  have hproduct : a.value.mul b.value = .ok ⟨⟨1, 1⟩, [[1]], false⟩ := by decide +kernel
  obtain ⟨c, o, hc, ho, -, hnotes, -⟩ :=
    multiplyMatrices_notes_every_entry a b (by decide) (by decide) rfl
  obtain rfl := Except.ok.inj (hproduct.symm.trans hc)
  exact ⟨o, ho, hnotes.trans (by decide +kernel)⟩

/-- A column and a row of eleven ones: the notes on positions (1, 11) and (11, 1) are the same. -/
theorem multiplyMatrices_notes_not_distinct :
    let a : Named RatMatrix := ⟨"A", ⟨⟨11, 1⟩, List.replicate 11 [1], false⟩⟩
    let b : Named RatMatrix := ⟨"B", ⟨⟨1, 11⟩, [List.replicate 11 1], false⟩⟩
    a.value.WellFormed ∧ b.value.WellFormed ∧ a.value.shape.cols = b.value.shape.rows ∧
      ∃ o, multiplyMatrices a b = .ok o ∧
        o.transcript.notes[10]? = some "c_111 = (1)(1) = 1" ∧
        o.transcript.notes[110]? = some "c_111 = (1)(1) = 1" ∧
        ¬ (o.transcript.notes.map noteLabel).Nodup := by
  intro a b
  have ha : a.value.WellFormed := by decide
  have hb : b.value.WellFormed := by decide
  have hc : a.value.mul b.value =
      .ok ⟨⟨11, 11⟩, List.replicate 11 (List.replicate 11 1), false⟩ := by decide +kernel
  obtain ⟨o, ho, hnotes⟩ := notes_multiplyMatrices hc ha hb rfl
  refine ⟨ha, hb, rfl, o, ho, ?_, ?_, fun hnodup => ?_⟩
  · rw [hnotes]
    decide +kernel
  · rw [hnotes]
    decide +kernel
  · rw [hnotes] at hnodup
    exact absurd ((nodup_labels_iff _ _ _ _).mp hnodup) (by decide)

end Worked

end ExactLinear
