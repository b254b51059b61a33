import ExactLinear.Proofs.PrintedMatrices
import ExactLinear.Proofs.Reduction

/-!
# Printed row operations can be read back

A row operation is printed as words with a space between any two (`RowOp.parts`): the row that
changes, an arrow, and what becomes of the row. How many words there are and what stands at the
front of each tells the shapes apart, so `RowOp.ofWords?` finds the operation again, whatever the
rows and the numbers are. A line is read as an operation exactly if it is printed for one
(`RowOp.read?_eq_some_iff`), and it is printed for no other.

No other line of a printed reduction is read as an operation: a row of a matrix starts with a
bracket, and the labels and the note are not printed for any operation. So the printed transcript
alone, read line by line, yields the operations that lead from the matrix to its reduced form
(`RatMatrix.readOperations_reduce`).
-/

namespace ExactLinear

open Text

namespace RowOp

/-! ## Words -/

theorem toList_rowName (i : ℕ) : (rowName i).toList = 'R' :: digits (i + 1) := by
  rw [rowName, String.toList_append, toList_toString_nat]
  rfl

/-- The row with the name. -/
def row? : List Char → Option ℕ
  | 'R' :: number =>
    if Literal.isDigits number then some (Nat.ofDigitChars 10 number 0 - 1) else none
  | _ => none

theorem row?_rowName (i : ℕ) : row? (rowName i).toList = some i := by
  rw [toList_rowName, row?, if_pos (Literal.isDigits_digits _), ofDigitChars_digits,
    Nat.add_sub_cancel]

/-- The number with the literal. -/
def number? (word : List Char) : Option ℚ := (Literal.read (String.ofList word)).toOption

theorem number?_write (r : ℚ) : number? (Literal.write r).toList = some r := by
  rw [number?, String.ofList_toList, Literal.read_write]
  rfl

/-- The number that is written as a factor. -/
def factor? : List Char → Option ℚ
  | '(' :: word => number? word.dropLast
  | word => number? word

theorem factor?_writeFactor (r : ℚ) : factor? (Literal.writeFactor r).toList = some r := by
  rw [Literal.writeFactor]
  split_ifs
  · -- a literal has no parenthesis of its own
    unfold factor?
    split
    · rename_i word hword
      have hmem : '(' ∈ (Literal.write r).toList := hword ▸ List.mem_cons_self
      exact absurd (Literal.belongs_of_mem_write hmem) (by decide)
    · exact number?_write r
  · rw [String.toList_append, String.toList_append]
    change number? ((Literal.write r).toList ++ [')']).dropLast = some r
    rw [List.dropLast_concat, number?_write]

/-- What the factor behind a sign is multiplied by: minus means that a multiple is subtracted. -/
def sign? : List Char → Option ℚ
  | ['-'] => some 1
  | ['+'] => some (-1)
  | _ => none

/-- The words of a printed operation. -/
def parts : RowOp → List (List Char)
  | .swap a b => [(rowName a).toList, ['↔'], (rowName b).toList]
  | .divide row divisor =>
    if divisor = -1 then
      [(rowName row).toList, ['→'], '-' :: (rowName row).toList]
    else
      [(rowName row).toList, ['→'], (rowName row).toList, ['/'],
        (Literal.writeFactor divisor).toList]
  | .subtract target source factor =>
    let sign := if factor < 0 then ['+'] else ['-']
    if factor.abs = 1 then
      [(rowName target).toList, ['→'], (rowName target).toList, sign, (rowName source).toList]
    else
      [(rowName target).toList, ['→'], (rowName target).toList, sign,
        '(' :: (Literal.write factor.abs).toList, ['·'], (rowName source).toList ++ [')']]

/-- The operation that words spell out. -/
def ofWords? : List (List Char) → Option RowOp
  | [a, ['↔'], b] => do return .swap (← row? a) (← row? b)
  | [a, ['→'], _] => do return .divide (← row? a) (-1)
  | [a, ['→'], _, ['/'], d] => do return .divide (← row? a) (← factor? d)
  | [t, ['→'], _, sign, s] => do return .subtract (← row? t) (← row? s) (← sign? sign)
  | [t, ['→'], _, sign, '(' :: x, ['·'], s] => do
    return .subtract (← row? t) (← row? s.dropLast) ((← sign? sign) * (← number? x))
  | _ => none

/-! ## From words to operations -/

/-- The sign and the absolute value make up the factor. -/
theorem sign_mul_abs (r : ℚ) : (if r < 0 then -1 else 1) * r.abs = r := by
  rw [Rat.abs]
  split_ifs <;> grind

theorem sign?_eq_some (r : ℚ) :
    sign? (if r < 0 then ['+'] else ['-']) = some (if r < 0 then -1 else 1) := by
  split_ifs <;> rfl

theorem ofWords?_subtract_row (target source : ℕ) (again : List Char) {sign : List Char} {q : ℚ}
    (hsign : sign? sign = some q) :
    ofWords? [(rowName target).toList, ['→'], again, sign, (rowName source).toList] =
      some (.subtract target source q) := by
  have hne : sign = ['/'] → False := by
    rintro rfl
    cases hsign
  rw [ofWords?, row?_rowName, row?_rowName, hsign]
  · rfl
  · exact hne

theorem ofWords?_subtract_multiple (target source : ℕ) (again : List Char) {sign : List Char}
    {q : ℚ} (hsign : sign? sign = some q) (r : ℚ) :
    ofWords? [(rowName target).toList, ['→'], again, sign, '(' :: (Literal.write r).toList, ['·'],
        (rowName source).toList ++ [')']] = some (.subtract target source (q * r)) := by
  rw [ofWords?, List.dropLast_concat, row?_rowName, row?_rowName, hsign, number?_write]
  rfl

/-- The words of an operation spell it out. -/
theorem ofWords?_parts (op : RowOp) : ofWords? op.parts = some op := by
  cases op with
  | swap a b =>
    rw [parts, ofWords?, row?_rowName, row?_rowName]
    rfl
  | divide row divisor =>
    rw [parts]
    split_ifs with hone
    · rw [ofWords?, row?_rowName, hone]
      rfl
    · rw [ofWords?, row?_rowName, factor?_writeFactor]
      rfl
  | subtract target source factor =>
    have hsign := sign?_eq_some factor
    have hfactor := sign_mul_abs factor
    rw [parts]
    by_cases hone : factor.abs = 1
    · rw [hone, mul_one] at hfactor
      rw [if_pos hone, ofWords?_subtract_row target source _ hsign, hfactor]
    · rw [if_neg hone, ofWords?_subtract_multiple target source _ hsign, hfactor]

/-! ## From the text to words -/

theorem toList_text (op : RowOp) : op.text.toList = [' '].intercalate op.parts := by
  cases op with
  | swap a b => simp [text, parts, List.intercalate]
  | divide row divisor =>
    rw [text, parts]
    split_ifs <;> simp [List.intercalate]
  | subtract target source factor =>
    rw [text, parts]
    split_ifs <;> simp [List.intercalate]

/-- The character can be part of a word of a printed operation. -/
def isMark (c : Char) : Bool :=
  Literal.belongs c || c ∈ ['R', '↔', '→', '+', '(', '·', ')']

section Marks

variable {c : Char}

theorem notMem_rowName (h : isMark c = false) (i : ℕ) : c ∉ (rowName i).toList := by
  rw [toList_rowName]
  intro hmem
  obtain rfl | hdigit := List.mem_cons.mp hmem
  · cases h
  · simp [isMark, Literal.belongs, isDigit_of_mem_digits hdigit] at h

theorem notMem_write (h : isMark c = false) (r : ℚ) : c ∉ (Literal.write r).toList := by
  intro hmem
  simp [isMark, Literal.belongs_of_mem_write hmem] at h

theorem notMem_writeFactor (h : isMark c = false) (r : ℚ) :
    c ∉ (Literal.writeFactor r).toList := by
  have hwrite := notMem_write h r
  rw [Literal.writeFactor]
  split_ifs
  · exact hwrite
  · simp only [isMark, Bool.or_eq_false_iff, decide_eq_false_iff_not, List.mem_cons, not_or] at h
    simp [hwrite, h]

theorem notMem_of_mem_parts (h : isMark c = false) (op : RowOp) : ∀ w ∈ op.parts, c ∉ w := by
  have hrow := notMem_rowName h
  have hwrite := notMem_write h
  have hfactor := notMem_writeFactor h
  simp only [isMark, Literal.belongs, Bool.or_eq_false_iff, decide_eq_false_iff_not, List.mem_cons,
    not_or] at h
  cases op with
  | swap a b => simp [parts, hrow, h]
  | divide row divisor =>
    rw [parts]
    split_ifs <;> simp [hrow, hfactor, h]
  | subtract target source factor =>
    rw [parts]
    split_ifs <;> simp [hrow, hwrite, h]

end Marks

theorem ne_nil_of_mem_parts (op : RowOp) : ∀ w ∈ op.parts, w ≠ [] := by
  -- nothing is read from the empty word
  have hrow : ∀ i, rowName i ≠ "" := fun i heq => by
    have hread := row?_rowName i
    rw [heq] at hread
    cases hread
  have hfactor : ∀ r, Literal.writeFactor r ≠ "" := fun r heq => by
    have hread := factor?_writeFactor r
    rw [heq] at hread
    cases hread
  cases op with
  | swap a b => simp [parts, hrow]
  | divide row divisor =>
    rw [parts]
    split_ifs <;> simp [hrow, hfactor]
  | subtract target source factor =>
    rw [parts]
    split_ifs <;> simp [hrow]

theorem parts_ne_nil (op : RowOp) : op.parts ≠ [] := by
  intro hnil
  have hread := ofWords?_parts op
  rw [hnil] at hread
  cases hread

theorem words_text (op : RowOp) : words op.text.toList = op.parts := by
  rw [toList_text, words_intercalate (parts_ne_nil op)]
  exact fun w hw => ⟨notMem_of_mem_parts (by decide) op w hw, ne_nil_of_mem_parts op w hw⟩

theorem oneLine_text (op : RowOp) : OneLine op.text := by
  rw [OneLine, toList_text]
  exact notMem_intercalate (by decide) (notMem_of_mem_parts (by decide) op)

/-- The operation that is printed as the line. -/
def read? (line : List Char) : Option RowOp :=
  (ofWords? (words line)).filter fun op => op.text.toList = line

/-- Exactly the printed operations are read. -/
theorem read?_eq_some_iff {line : List Char} {op : RowOp} :
    read? line = some op ↔ op.text.toList = line := by
  rw [read?, Option.filter_eq_some_iff, decide_eq_true_iff]
  constructor
  · exact And.right
  · rintro rfl
    rw [words_text]
    exact ⟨ofWords?_parts op, rfl⟩

theorem text_injective : Function.Injective text := by
  intro op op' h
  have hread : read? op.text.toList = some op := read?_eq_some_iff.mpr rfl
  have hread' : read? op.text.toList = some op' := read?_eq_some_iff.mpr (by rw [h])
  exact Option.some.inj (hread.symm.trans hread')

/-! ## Lines that are no operations -/

/-- Every operation starts with the name of a row. -/
theorem head?_text (op : RowOp) : op.text.toList.head? = some 'R' := by
  cases op with
  | swap a b => simp [text, toList_rowName]
  | divide row divisor =>
    rw [text]
    split_ifs <;> simp [toList_rowName]
  | subtract target source factor => simp [text, toList_rowName]

theorem read?_eq_none_of_head? {line : List Char} (h : line.head? ≠ some 'R') :
    read? line = none := by
  cases hread : read? line with
  | none => rfl
  | some op => exact absurd (read?_eq_some_iff.mp hread ▸ head?_text op) h

/-- A row of a matrix starts with a bracket. -/
theorem read?_renderRow (width bar : ℕ) (row : List ℚ) :
    read? (RatMatrix.renderRow width bar row).toList = none := by
  refine read?_eq_none_of_head? ?_
  rw [RatMatrix.toList_renderRow, List.head?_cons]
  decide

end RowOp

/-! ## Printed transcripts -/

/-- Nothing but the operations counts when a transcript is replayed. -/
theorem Transcript.replay_congr {t t' : Transcript} (h : t.operations = t'.operations)
    (m : RatMatrix) : t.replay m = t'.replay m := by
  rw [Transcript.replay, h, ← Transcript.replay]

theorem Transcript.operations_map_operation (ops : List RowOp) :
    Transcript.operations (ops.map .operation) = ops := by
  rw [Transcript.operations, List.filterMap_map]
  exact List.filterMap_some

/-- The operations among the lines of a text. -/
def readOperations (s : String) : List RowOp := (lines s).filterMap RowOp.read?

theorem readOperations_append_newline (s t : String) :
    readOperations (s ++ "\n" ++ t) = readOperations s ++ readOperations t := by
  rw [readOperations, lines_append_newline, List.filterMap_append]
  rfl

theorem readOperations_text (op : RowOp) : readOperations op.text = [op] := by
  rw [readOperations, lines_eq_singleton (RowOp.oneLine_text op)]
  exact List.filterMap_cons_some (RowOp.read?_eq_some_iff.mpr rfl)

/-- No row of a matrix is an operation. -/
theorem readOperations_matrix (m : RatMatrix) : readOperations m.text = [] := by
  by_cases hrows : m.rows = []
  · rw [RatMatrix.text, RatMatrix.renderLines, hrows]
    rfl
  · rw [readOperations, RatMatrix.lines_text_of_rows_ne_nil hrows, List.filterMap_map,
      List.filterMap_eq_nil_iff]
    exact fun row _ => RowOp.read?_renderRow _ _ row

theorem readOperations_render (t : Transcript) :
    readOperations t.render = t.flatMap fun entry => readOperations entry.text := by
  induction t with
  | nil => rfl
  | cons entry t ih =>
    rw [Transcript.render, List.map_cons, String.join_cons, readOperations_append_newline,
      List.flatMap_cons, ← ih]
    rfl

theorem readOperations_snapshot (label : String) (hlabel : readOperations (label ++ ":") = [])
    (m : RatMatrix) : readOperations (Entry.matrix label m).text = [] := by
  rw [Entry.text]
  split_ifs
  · rw [String.empty_append, readOperations_matrix]
  · have hbreak : label ++ ":\n" = label ++ ":" ++ "\n" := by rw [String.append_assoc]; rfl
    rw [hbreak, readOperations_append_newline, hlabel, readOperations_matrix]
    rfl

namespace RatMatrix

theorem readOperations_steps (m : RatMatrix) (ops : List RowOp) :
    (Reduction.steps m ops).flatMap (fun entry => readOperations entry.text) = ops := by
  induction ops generalizing m with
  | nil => rfl
  | cons op ops ih =>
    have hop : readOperations (Entry.operation op).text = [op] := readOperations_text op
    rw [Reduction.steps, List.flatMap_cons, List.flatMap_cons, ih, hop,
      readOperations_snapshot "" (by decide)]
    rfl

/-- The lines of a printed reduction that are operations are those of its transcript. -/
theorem readOperations_reduce (m : RatMatrix) :
    readOperations m.reduce.transcript.render = m.reduce.transcript.operations := by
  have hinitial := readOperations_snapshot "Initial matrix" (by decide +kernel)
  have hreduced := readOperations_snapshot "Reduced row-echelon form" (by decide +kernel)
  rw [readOperations_render]
  by_cases hred : m.isReduced = true
  · have hnote : readOperations "The matrix is already in reduced row-echelon form." = [] := by
      decide +kernel
    rw [reduce, if_pos hred, List.flatMap_cons, hinitial, List.flatMap_singleton, Entry.text, hnote]
    rfl
  · rw [operations_reduce hred, reduce, if_neg hred]
    dsimp only
    rw [List.cons_append, List.flatMap_cons, List.flatMap_append, List.flatMap_singleton, hinitial,
      hreduced, readOperations_steps, List.nil_append, List.append_nil]

/-- **Printed row operations determine the operation.** Operations that print alike are equal, for
all rows, divisors and factors. So transcripts with the same operation lines come to the same on
every matrix; and what is read from the lines of a printed reduction are the operations that were
performed, which lead from the matrix to its reduced form. -/
theorem printed_operations_determine_reduction :
    Function.Injective RowOp.text ∧
      (∀ t t' : Transcript, t.operations.map RowOp.text = t'.operations.map RowOp.text →
        ∀ m, t.replay m = t'.replay m) ∧
      ∀ m : RatMatrix, m.WellFormed →
        readOperations m.reduce.transcript.render = m.reduce.transcript.operations ∧
          Transcript.replay ((readOperations m.reduce.transcript.render).map .operation) m =
            .ok m.reduce.matrix := by
  refine ⟨RowOp.text_injective, fun t t' hlines m => ?_, fun m hm => ⟨readOperations_reduce m, ?_⟩⟩
  · exact Transcript.replay_congr (List.map_injective_iff.mpr RowOp.text_injective hlines) m
  · rw [readOperations_reduce,
      Transcript.replay_congr (Transcript.operations_map_operation m.reduce.transcript.operations)]
    exact (replay_reduce hm).2

/-- A system whose reduction prints five shapes of operations: they are read from its transcript,
and a transcript of nothing else comes to the same. -/
theorem printed_operations_determine_reduction_of_five_shapes :
    let m : RatMatrix := ⟨⟨2, 3⟩, [[1 / 2, 1, 3], [-1, 1, 1]], true⟩
    let ops : List RowOp := [.swap 0 1, .divide 0 (-1), .subtract 1 0 (1 / 2), .divide 1 (3 / 2),
      .subtract 0 1 (-1)]
    ops.map RowOp.text = ["R1 ↔ R2", "R1 → -R1", "R2 → R2 - (1/2 · R1)", "R2 → R2 / (3/2)",
        "R1 → R1 + R2"] ∧
      readOperations m.reduce.transcript.render = ops ∧
      Transcript.replay (ops.map .operation) m =
        .ok ⟨⟨2, 3⟩, [[1, 0, 4 / 3], [0, 1, 7 / 3]], true⟩ ∧
      m.reduce.transcript.replay m = Transcript.replay (ops.map .operation) m := by
  intro m ops
  have hops : m.reduce.transcript.operations = ops := by decide +kernel
  have hmatrix : m.reduce.matrix = ⟨⟨2, 3⟩, [[1, 0, 4 / 3], [0, 1, 7 / 3]], true⟩ := by
    decide +kernel
  obtain ⟨-, hlines, hreduction⟩ := printed_operations_determine_reduction
  obtain ⟨hread, hreplay⟩ := hreduction m (by decide)
  rw [hops] at hread
  rw [hread, hmatrix] at hreplay
  refine ⟨by decide +kernel, hread, hreplay, hlines _ _ ?_ m⟩
  rw [hops]
  rfl

end RatMatrix

end ExactLinear
