import ExactLinear.Proofs.Grid
import ExactLinear.Proofs.TextParts
import ExactLinear.RatMatrix.Render

/-!
# Printed matrices are aligned and can be read back

A line of a printed matrix is a row of cells (`cellsFrom`). As every entry fits in its cell, the
length of the cells depends on their number only (`length_cellsFrom`): all lines are equally long,
and the bar before the constants stands in all of them at one place. The spaces between the cells
leave the entries as words of the line (`entryWords_cellsFrom`), so the rows are known from the
text, and with them the matrix.
-/

namespace ExactLinear

namespace RatMatrix

open Text

variable {width bar j : ℕ} {row : List ℚ} {m n : RatMatrix}

/-! ## The cells of a line -/

/-- The characters of cell `j` and the cells behind it. -/
def cellsFrom (width bar : ℕ) : ℕ → List ℚ → List Char
  | _, [] => []
  | j, x :: row =>
    (separator bar j).toList ++ ((Literal.write x).toList.leftpad width ' ' ++
      cellsFrom width bar (j + 1) row)

theorem flatMap_cells (width bar j : ℕ) (row : List ℚ) :
    (row.mapIdx fun i x => separator bar (i + j) ++ padLeft width (Literal.write x)).flatMap
      String.toList = cellsFrom width bar j row := by
  induction row generalizing j with
  | nil => rfl
  | cons x row ih =>
    have hrow := ih (j + 1)
    simp only [← Nat.add_assoc] at hrow
    simp only [List.mapIdx_cons, List.flatMap_cons, Nat.add_right_comm _ 1 j, hrow]
    rw [Nat.zero_add, String.toList_append, padLeft, String.toList_ofList, List.append_assoc,
      cellsFrom]

theorem toList_renderRow (width bar : ℕ) (row : List ℚ) :
    (renderRow width bar row).toList = '[' :: (cellsFrom width bar 0 row ++ [' ', ']']) := by
  have hcells := flatMap_cells width bar 0 row
  simp only [Nat.add_zero] at hcells
  rw [renderRow, String.toList_append, String.toList_append, String.toList_join, hcells]
  rfl

theorem cellsFrom_append (width bar j : ℕ) (row row' : List ℚ) :
    cellsFrom width bar j (row ++ row') =
      cellsFrom width bar j row ++ cellsFrom width bar (j + row.length) row' := by
  induction row generalizing j with
  | nil => rfl
  | cons x row ih =>
    simp only [List.cons_append, cellsFrom, ih, List.append_assoc, List.length_cons]
    rw [Nat.add_right_comm j 1 row.length]
    rfl

/-- A separator starts with a space. -/
theorem toList_separator_eq_cons (bar j : ℕ) : ∃ s, (separator bar j).toList = ' ' :: s := by
  unfold separator
  split_ifs
  · exact ⟨_, rfl⟩
  · exact ⟨_, rfl⟩
  · exact ⟨_, rfl⟩

theorem ends_cellsFrom (width bar j : ℕ) (row : List ℚ) :
    Ends (· ≠ ' ') (cellsFrom width bar j row) := by
  cases row with
  | nil => exact Ends.nil _
  | cons x row =>
    obtain ⟨s, hs⟩ := toList_separator_eq_cons bar j
    rw [cellsFrom, hs]
    exact Ends.cons rfl _

/-! ## Equally long lines -/

theorem le_foldl_max {l : List ℕ} {a b : ℕ} (h : a ∈ l) : a ≤ l.foldl max b := by
  rw [List.foldl_max, List.max?_eq_some_max (List.ne_nil_of_mem h)]
  exact (List.le_max_of_mem h).trans (le_max_right _ _)

/-- Every entry of the row fits in its cell. -/
def Fits (width : ℕ) (row : List ℚ) : Prop := ∀ x ∈ row, (Literal.write x).length ≤ width

theorem fits_cellWidth {rows : List (List ℚ)} (hrow : row ∈ rows) : Fits (cellWidth rows) row :=
  fun x hx =>
    le_foldl_max (List.mem_map.mpr ⟨x, List.mem_flatten.mpr ⟨row, hrow, hx⟩, rfl⟩)

/-- The number of characters in `n` cells from cell `j` on. -/
def cellsLength (width bar j n : ℕ) : ℕ :=
  ((List.range' j n).map fun i => (separator bar i).length + width).sum

theorem length_cellsFrom (h : Fits width row) :
    (cellsFrom width bar j row).length = cellsLength width bar j row.length := by
  induction row generalizing j with
  | nil => rfl
  | cons x row ih =>
    obtain ⟨hx, hrow⟩ := List.forall_mem_cons.mp h
    have hcell : ((Literal.write x).toList.leftpad width ' ').length = width := by
      rw [List.length_leftpad, String.length_toList, max_eq_left hx]
    rw [cellsFrom, List.length_append, List.length_append, hcell, ih hrow, String.length_toList,
      cellsLength, cellsLength, List.length_cons, List.range'_succ, List.map_cons, List.sum_cons,
      Nat.add_assoc]

theorem length_renderRow (h : Fits width row) :
    (renderRow width bar row).toList.length = cellsLength width bar 0 row.length + 3 := by
  rw [toList_renderRow, List.length_cons, List.length_append, length_cellsFrom h]
  rfl

/-! ## The bar -/

theorem mem_separator {c : Char} (h : c ∈ (separator bar j).toList) :
    c = ' ' ∨ c = '|' ∧ j = bar := by
  unfold separator at h
  split_ifs at h with hbar
  · have hc : c = ' ' ∨ c = '|' ∨ c = ' ' := by simpa using h
    tauto
  · exact .inl (by simpa using h)
  · exact .inl (by simpa using h)

theorem mem_leftpad_write {c : Char} {x : ℚ}
    (h : c ∈ (Literal.write x).toList.leftpad width ' ') : c = ' ' ∨ Literal.belongs c = true := by
  rw [List.leftpad, List.mem_append] at h
  exact h.imp List.eq_of_mem_replicate Literal.belongs_of_mem_write

theorem mem_cellsFrom {c : Char} (h : c ∈ cellsFrom width bar j row) :
    c = ' ' ∨ Literal.belongs c = true ∨ c = '|' ∧ j ≤ bar ∧ bar < j + row.length := by
  induction row generalizing j with
  | nil => cases h
  | cons x row ih =>
    rw [cellsFrom, List.mem_append, List.mem_append] at h
    rw [List.length_cons]
    rcases h with hsep | hpad | hrest
    · obtain h | ⟨h, rfl⟩ := mem_separator hsep
      · exact .inl h
      · exact .inr (.inr ⟨h, le_rfl, by omega⟩)
    · exact (mem_leftpad_write hpad).imp_right .inl
    · obtain h | h | ⟨h, hle, hlt⟩ := ih hrest
      · exact .inl h
      · exact .inr (.inl h)
      · exact .inr (.inr ⟨h, by omega, by omega⟩)

theorem bar_notMem_cellsFrom (h : bar < j ∨ j + row.length ≤ bar) :
    '|' ∉ cellsFrom width bar j row := by
  intro hmem
  obtain h' | h' | ⟨-, hle, hlt⟩ := mem_cellsFrom hmem
  · exact absurd h' (by decide)
  · exact absurd h' (by decide)
  · omega

/-- A character that occurs once, by its number. -/
theorem getElem?_eq_some_iff_of_notMem {c : Char} {front back : List Char} (hfront : c ∉ front)
    (hback : c ∉ back) (k : ℕ) :
    (front ++ c :: back)[k]? = some c ↔ k = front.length := by
  constructor
  · intro hk
    rcases lt_trichotomy k front.length with hlt | heq | hgt
    · rw [List.getElem?_append_left hlt] at hk
      exact absurd (List.mem_of_getElem? hk) hfront
    · exact heq
    · rw [List.getElem?_append_right hgt.le, List.getElem?_cons,
        if_neg (Nat.sub_ne_zero_of_lt hgt)] at hk
      exact absurd (List.mem_of_getElem? hk) hback
  · rintro rfl
    rw [List.getElem?_append_right le_rfl, Nat.sub_self, List.getElem?_cons_zero]

/-- A line that is taken apart at its bar. -/
theorem toList_renderRow_append (width : ℕ) (left : List ℚ) (x : ℚ) (right : List ℚ) :
    (renderRow width left.length (left ++ x :: right)).toList =
      ('[' :: (cellsFrom width left.length 0 left ++ [' '])) ++ '|' :: ' ' ::
        ((Literal.write x).toList.leftpad width ' ' ++
          (cellsFrom width left.length (left.length + 1) right ++ [' ', ']'])) := by
  rw [toList_renderRow, cellsFrom_append, Nat.zero_add, cellsFrom, separator, if_pos rfl]
  simp only [List.append_assoc, List.cons_append]
  rfl

/-- The bar stands in a line once, and only where it belongs before one of the cells. -/
theorem getElem?_renderRow_eq_bar_iff (h : Fits width row) (k : ℕ) :
    (renderRow width bar row).toList[k]? = some '|' ↔
      bar < row.length ∧ k = cellsLength width bar 0 bar + 2 := by
  by_cases hbar : bar < row.length
  · obtain ⟨left, x, right, rfl, rfl⟩ :
        ∃ left x right, row = left ++ x :: right ∧ bar = left.length :=
      ⟨row.take bar, row[bar], row.drop (bar + 1), by simp, by simp [hbar.le]⟩
    have hfront : '|' ∉ '[' :: (cellsFrom width left.length 0 left ++ [' ']) := by
      simpa using bar_notMem_cellsFrom (.inr (Nat.zero_add _).le)
    have hback : '|' ∉ ' ' :: ((Literal.write x).toList.leftpad width ' ' ++
        (cellsFrom width left.length (left.length + 1) right ++ [' ', ']'])) := by
      intro hmem
      rw [List.mem_cons, List.mem_append, List.mem_append] at hmem
      obtain h | h | h | h := hmem
      · exact absurd h (by decide)
      · exact absurd (mem_leftpad_write h) (by decide)
      · exact bar_notMem_cellsFrom (.inl left.length.lt_succ_self) h
      · exact absurd h (by decide)
    have hleft : Fits width left := fun y hy => h y (List.mem_append_left _ hy)
    rw [toList_renderRow_append, getElem?_eq_some_iff_of_notMem hfront hback, List.length_cons,
      List.length_append, length_cellsFrom hleft]
    exact (and_iff_right hbar).symm
  · refine iff_of_false (fun hk => ?_) (fun hk => hbar hk.1)
    have hmem := List.mem_of_getElem? hk
    rw [toList_renderRow] at hmem
    have hcells : '|' ∉ cellsFrom width bar 0 row := bar_notMem_cellsFrom (.inr (by omega))
    exact absurd hmem (by simpa using hcells)

/-! ## Lines and entries -/

theorem oneLine_renderRow (width bar : ℕ) (row : List ℚ) : OneLine (renderRow width bar row) := by
  intro hmem
  rw [toList_renderRow, List.mem_cons, List.mem_append] at hmem
  obtain h | h | h := hmem
  · exact absurd h (by decide)
  · obtain h | h | ⟨h, -⟩ := mem_cellsFrom h
    · exact absurd h (by decide)
    · exact absurd h (by decide)
    · exact absurd h (by decide)
  · exact absurd h (by decide)

theorem lines_text_of_rows_ne_nil (hne : m.rows ≠ []) :
    lines m.text = m.rows.map fun row =>
      (renderRow (cellWidth m.rows) m.variableCount row).toList := by
  rw [text, renderLines, lines_intercalate (by simpa using hne), List.map_map]
  · rfl
  · intro l hl
    obtain ⟨row, -, rfl⟩ := List.mem_map.mp hl
    exact oneLine_renderRow _ _ row

theorem lines_text (hm : m.WellFormed) :
    lines m.text = m.rows.map fun row =>
      (renderRow (cellWidth m.rows) m.variableCount row).toList :=
  lines_text_of_rows_ne_nil (List.length_pos_iff.mp (hm.2.2.1.symm ▸ hm.1))

/-- The words of a line but the bar. -/
def entryWords (s : List Char) : List (List Char) := (words s).filter (· ≠ ['|'])

theorem entryWords_separator (bar j : ℕ) (rest : List Char) :
    entryWords ((separator bar j).toList ++ rest) = entryWords rest := by
  unfold separator entryWords
  split_ifs
  · have hwords : words (" | ".toList ++ rest) = ['|'] :: words rest := by
      change words (' ' :: (['|'] ++ ' ' :: rest)) = _
      rw [words_space, words_append_space, words_eq_singleton (by decide) (by decide)]
      rfl
    rw [hwords]
    exact List.filter_cons_of_neg (by decide)
  · exact congrArg _ (words_space rest)
  · exact congrArg _ ((words_space _).trans (words_space rest))

theorem entryWords_cellsFrom (width bar j : ℕ) (row : List ℚ) :
    entryWords (cellsFrom width bar j row) = row.map fun x => (Literal.write x).toList := by
  induction row generalizing j with
  | nil => rfl
  | cons x row ih =>
    have hspace : ' ' ∉ (Literal.write x).toList := fun hmem =>
      absurd (Literal.belongs_of_mem_write hmem) (by decide)
    have hbar : (Literal.write x).toList ≠ ['|'] := fun heq =>
      absurd (Literal.belongs_of_mem_write (heq ▸ List.mem_singleton_self '|')) (by decide)
    rw [cellsFrom, entryWords_separator, entryWords, List.leftpad, List.append_assoc,
      words_replicate_space, words_append _ (ends_cellsFrom width bar _ row), List.filter_append,
      words_eq_singleton hspace (Literal.toList_write_ne_nil x),
      List.filter_cons_of_pos (by simpa using hbar), List.map_cons, ← ih (j + 1)]
    rfl

theorem entryWords_renderRow (width bar : ℕ) (row : List ℚ) :
    entryWords (renderRow width bar row).toList =
      ['['] :: (row.map (fun x => (Literal.write x).toList) ++ [[']']]) := by
  rw [toList_renderRow, ← entryWords_cellsFrom width bar 0, entryWords, entryWords]
  change (words (['['] ++ cellsFrom width bar 0 row ++ ' ' :: [']'])).filter _ = _
  rw [words_append_space, words_append _ (ends_cellsFrom width bar 0 row), List.filter_append,
    List.filter_append]
  rfl

/-! ## What a text determines -/

/-- All lines are equally long, and the bar stands in all of them at one place, or in none. -/
theorem aligned_lines (hm : m.WellFormed) :
    ∃ width bar : ℕ, ∀ l ∈ lines m.text, l.length = width ∧
      ∀ k : ℕ, l[k]? = some '|' ↔ m.augmented = true ∧ k = bar := by
  refine ⟨cellsLength (cellWidth m.rows) m.variableCount 0 m.shape.cols + 3,
    cellsLength (cellWidth m.rows) m.variableCount 0 m.variableCount + 2, fun l hl => ?_⟩
  rw [lines_text hm] at hl
  obtain ⟨row, hrow, rfl⟩ := List.mem_map.mp hl
  have hlength : row.length = m.shape.cols := hm.rectangular.row_length row hrow
  have hbar : m.variableCount < row.length ↔ m.augmented = true := by
    cases haug : m.augmented with
    | false => simp [hlength, variableCount_eq_cols haug]
    | true => simp [hlength, hm.cols_eq haug]
  refine ⟨?_, fun k => ?_⟩
  · rw [length_renderRow (fits_cellWidth hrow), hlength]
  · rw [getElem?_renderRow_eq_bar_iff (fits_cellWidth hrow), hbar]

theorem rows_eq_of_text_eq (hm : m.WellFormed) (hn : n.WellFormed) (h : m.text = n.text) :
    m.rows = n.rows := by
  have hlines := lines_text hm
  rw [h, lines_text hn] at hlines
  have hwords := congrArg (List.map entryWords) hlines
  simp only [List.map_map, Function.comp_def, entryWords_renderRow] at hwords
  have hinj : ∀ row row' : List ℚ,
      ['['] :: (row.map (fun x => (Literal.write x).toList) ++ [[']']]) =
        ['['] :: (row'.map (fun x => (Literal.write x).toList) ++ [[']']]) → row = row' :=
    fun row row' heq => (List.map_inj_right fun _ _ hx => Literal.write_injective
      (String.toList_injective hx)).mp (List.append_cancel_right (List.cons.inj heq).2)
  exact ((List.map_inj_right hinj).mp hwords).symm

theorem augmented_of_text_eq (hm : m.WellFormed) (hn : n.WellFormed) (h : m.text = n.text)
    (haug : m.augmented = true) : n.augmented = true := by
  obtain ⟨_, bar, hlines⟩ := aligned_lines hm
  obtain ⟨_, _, hlines'⟩ := aligned_lines hn
  obtain ⟨l, hl⟩ : ∃ l, l ∈ lines m.text := by
    refine List.exists_mem_of_length_pos ?_
    rw [lines_text hm, List.length_map, hm.rectangular.length_eq]
    exact hm.1
  have hbar := ((hlines l hl).2 bar).mpr ⟨haug, rfl⟩
  exact (((hlines' l (h ▸ hl)).2 bar).mp hbar).1

/-- **Printed matrices are aligned and can be read back.** A matrix has a line for each row, and its
lines are equally long. The bar of an augmented matrix stands once in each of them, at the same
place; without the flag there is none. Matrices that print alike are equal. -/
theorem printed_matrix_aligned_lossless (m : RatMatrix) (hm : m.WellFormed) :
    (lines m.text).length = m.shape.rows ∧
      (∃ width bar : ℕ, ∀ l ∈ lines m.text, l.length = width ∧
        ∀ k : ℕ, l[k]? = some '|' ↔ m.augmented = true ∧ k = bar) ∧
      ∀ n : RatMatrix, n.WellFormed → m.text = n.text → m = n := by
  refine ⟨?_, aligned_lines hm, fun n hn htext => ?_⟩
  · rw [lines_text hm, List.length_map, hm.rectangular.length_eq]
  · refine hm.eq_of_rows_eq hn (rows_eq_of_text_eq hm hn htext) (Bool.eq_iff_iff.mpr ⟨?_, ?_⟩)
    · exact augmented_of_text_eq hm hn htext
    · exact augmented_of_text_eq hn hm htext.symm

/-- Two constants and no variables: the bar stands before the only cell of each line, and it tells
the system from the plain column. -/
theorem printed_matrix_aligned_lossless_of_constants :
    let m : RatMatrix := ⟨⟨2, 1⟩, [[10], [-3 / 2]], true⟩
    m.WellFormed ∧
      (∃ width bar : ℕ, ∀ l ∈ lines m.text, l.length = width ∧
        ∀ k : ℕ, l[k]? = some '|' ↔ k = bar) ∧
      m.text ≠ (m.withAugmented false).text := by
  intro m
  have hm : m.WellFormed := by decide
  obtain ⟨-, ⟨width, bar, hlines⟩, hinj⟩ := printed_matrix_aligned_lossless m hm
  refine ⟨hm, ⟨width, bar, fun l hl => ?_⟩, fun htext => ?_⟩
  · obtain ⟨hlength, hbar⟩ := hlines l hl
    exact ⟨hlength, fun k => (hbar k).trans (and_iff_right rfl)⟩
  · exact Bool.noConfusion (congrArg augmented (hinj _ (by decide) htext))

end RatMatrix

end ExactLinear
