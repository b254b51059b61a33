import ExactLinear.Command.Phrase
import ExactLinear.Proofs.Computation
import ExactLinear.Proofs.Grid
import ExactLinear.Proofs.SpacedTokens

/-!
# The tokens of a statement

`StatementSpelled` gives the tokens of a statement: a rational in lowest terms, a matrix as rows in
brackets with a bar before the constants of an augmented one, a function under any of its spellings.
Whatever the statement is, its tokens can be read (`StatementSpelled.readable`), and the grammar
makes a phrase of them that means the statement (`StatementSpelled.phrase`).
-/

namespace ExactLinear

namespace Command

/-! ## The tokens of a statement -/

/-- The symbol of an operator. -/
def operatorSymbol : BinaryOp → Char
  | .plus => '+'
  | .minus => '-'
  | .times => '*'
  | .dot => '.'

/-- Tokens with commas between them. -/
def commaTokens (tokens : List Token) : List Token := tokens.intersperse (.mark ',')

/-- The entries of a row with commas between them, or with a bar before the last entry of a row of
an augmented matrix. -/
def entryTokens (augmented : Bool) : List Rat → List Token
  | [] => []
  | [x] => [.number (Literal.write x)]
  | [x, y] =>
    [.number (Literal.write x), .mark (if augmented then '|' else ','), .number (Literal.write y)]
  | x :: y :: z :: row =>
    .number (Literal.write x) :: .mark ',' :: entryTokens augmented (y :: z :: row)

/-- A row between brackets. -/
def rowTokens (augmented : Bool) (row : List Rat) : List Token :=
  .mark '[' :: (entryTokens augmented row ++ [.mark ']'])

/-- A matrix: its rows with commas between them, between brackets. -/
def matrixTokens (m : RatMatrix) : List Token :=
  .mark '[' :: ([.mark ','].intercalate (m.rows.map (rowTokens m.augmented)) ++ [.mark ']'])

/-- A vector: its components with commas between them, between parentheses. -/
def vectorTokens (v : RatVector) : List Token :=
  .mark '(' :: (commaTokens (v.entries.map fun x => .number (Literal.write x)) ++ [.mark ')'])

/-- The tokens of an operation on names that are letters. -/
inductive OperationSpelled : Operation → List Token → Prop where
  | binary (op : BinaryOp) {left right : Char} (hleft : left.isAlpha = true)
      (hright : right.isAlpha = true) :
      OperationSpelled (.binary op left.toString right.toString)
        [.name left, .mark (operatorSymbol op), .name right]
  | scaled (factor : Rat) {name : Char} (hname : name.isAlpha = true) :
      OperationSpelled (.scaled factor name.toString)
        [.number (Literal.write factor), .mark '*', .name name]
  | call {spelling : String} {function : Builtin} {args : List Char}
      (hspelling : (spelling, function) ∈ Builtin.spellings) (hne : args ≠ [])
      (hargs : ∀ c ∈ args, c.isAlpha = true) :
      OperationSpelled (.call function (args.map Char.toString))
        (.word spelling :: .mark '(' :: (commaTokens (args.map .name) ++ [.mark ')']))
  | show {name : Char} (hname : name.isAlpha = true) :
      OperationSpelled (.show name.toString) [.name name]

/-- The tokens of a statement. The matrix or vector that a name is defined as has its literal: a
matrix has at least two columns if it is augmented. -/
inductive StatementSpelled : Statement → List Token → Prop where
  | list : StatementSpelled .list [.word listWord]
  | matrix {name : Char} {m : RatMatrix} (hname : name.isAlpha = true) (hm : m.WellFormed)
      (haugmented : m.augmented = true → 2 ≤ m.shape.cols) :
      StatementSpelled (.define name.toString (.matrix m))
        (.name name :: .mark '=' :: matrixTokens m)
  | vector {name : Char} {v : RatVector} (hname : name.isAlpha = true) (hv : v.WellFormed) :
      StatementSpelled (.define name.toString (.vector v))
        (.name name :: .mark '=' :: vectorTokens v)
  | bind {name : Char} {operation : Operation} {tokens : List Token} (hname : name.isAlpha = true)
      (h : OperationSpelled operation tokens) :
      StatementSpelled (.bind name.toString operation) (.name name :: .mark '=' :: tokens)
  | run {operation : Operation} {tokens : List Token} (h : OperationSpelled operation tokens) :
      StatementSpelled (.run operation) tokens

variable {statement : Statement} {operation : Operation} {tokens tail : List Token}
  {augmented : Bool}

/-! ## The tokens can be read -/

namespace Readable

theorem commaTokens (h : ∀ t ∈ tokens, t.Valid) : Readable (commaTokens tokens) := by
  induction tokens with
  | nil => exact nil
  | cons t tokens ih =>
    obtain ⟨ht, htokens⟩ := List.forall_mem_cons.mp h
    cases tokens with
    | nil => exact single ht
    | cons u tokens =>
      rw [Command.commaTokens, List.intersperse_cons_cons]
      exact (single ht).append_mark (by decide) (ih htokens)

theorem entryTokens (augmented : Bool) (row : List Rat) :
    Readable (entryTokens augmented row) := by
  induction row using entryTokens.induct with
  | case1 => exact nil
  | case2 x => exact single (.number x)
  | case3 x y =>
    refine (single (.number x)).append_mark ?_ (single (.number y))
    cases augmented <;> decide
  | case4 x y z row ih => exact (single (.number x)).append_mark (by decide) ih

theorem rowTokens (augmented : Bool) (row : List Rat) : Readable (rowTokens augmented row) :=
  (entryTokens augmented row).bracketed (by decide) (by decide)

theorem rows (augmented : Bool) (rows : List (List Rat)) :
    Readable ([.mark ','].intercalate (rows.map (Command.rowTokens augmented))) := by
  induction rows with
  | nil => exact nil
  | cons row rows ih =>
    cases rows with
    | nil =>
      rw [List.map_singleton, List.intercalate_singleton]
      exact rowTokens augmented row
    | cons next rows =>
      rw [List.map_cons, List.map_cons, List.intercalate_cons_cons, List.append_assoc]
      exact (rowTokens augmented row).append_mark (by decide) ih

/-- A name and an equality sign before tokens. -/
theorem assigned {name : Char} (hname : name.isAlpha = true) (h : Readable tokens) :
    Readable (.name name :: .mark '=' :: tokens) :=
  (single (.name hname)).append_mark (by decide) h

end Readable

/-- The text is a word: a lowercase letter first, and at least two characters. -/
def isWord (text : String) : Bool :=
  match text.toList with
  | c :: d :: body => c.isLower && (d :: body).all isWordChar
  | _ => false

theorem Token.Valid.of_isWord {text : String} (h : isWord text = true) :
    Token.Valid (.word text) := by
  unfold isWord at h
  split at h
  · rename_i c d body heq
    rw [Bool.and_eq_true, List.all_eq_true] at h
    rw [← String.ofList_toList (s := text), heq]
    exact .word h.1 (by simp) h.2
  · cases h

theorem isWord_of_mem_spellings :
    ∀ spelling ∈ Builtin.spellings, isWord spelling.1 = true := by
  decide +kernel

theorem OperationSpelled.readable (h : OperationSpelled operation tokens) : Readable tokens := by
  cases h with
  | @binary op left right hleft hright =>
    by_cases hop : op = .minus
    · subst hop
      refine ⟨?_, .cons_cons (.before_mark _ _) (.cons_cons (.after_minus _) (.singleton _))⟩
      simp only [List.forall_mem_cons]
      exact ⟨.name hleft, .mark (by decide), .name hright, by simp⟩
    · refine (Readable.single (.name hleft)).append_mark ?_ (.single (.name hright))
      cases op <;> first | decide | exact absurd rfl hop
  | scaled factor hname =>
    exact (Readable.single (.number factor)).append_mark (by decide) (.single (.name hname))
  | call hspelling hne hargs =>
    have hargs : Readable (commaTokens (List.map Token.name _)) :=
      .commaTokens (List.forall_mem_map.mpr fun c hc => .name (hargs c hc))
    exact (Readable.single (.of_isWord (isWord_of_mem_spellings _ hspelling))).append_mark
      (by decide) (hargs.append_mark (by decide) .nil)
  | «show» hname => exact .single (.name hname)

theorem Readable.matrixTokens (m : RatMatrix) : Readable (matrixTokens m) :=
  (Readable.rows m.augmented m.rows).bracketed (by decide) (by decide)

theorem Readable.vectorTokens (v : RatVector) : Readable (vectorTokens v) := by
  have hentries : ∀ t ∈ v.entries.map fun x => Token.number (Literal.write x), t.Valid :=
    List.forall_mem_map.mpr fun x _ => .number x
  exact (Readable.commaTokens hentries).bracketed (by decide) (by decide)

theorem StatementSpelled.readable (h : StatementSpelled statement tokens) : Readable tokens := by
  cases h with
  | list => exact .single (.of_isWord (by decide +kernel))
  | matrix hname => exact .assigned hname (.matrixTokens _)
  | vector hname => exact .assigned hname (.vectorTokens _)
  | bind hname h => exact .assigned hname h.readable
  | run h => exact h.readable

/-! ## The grammar takes them apart -/

theorem names?_commaTokens {names : List Char} (hne : names ≠ []) :
    names? (commaTokens (names.map .name) ++ [.mark ')']) = some names := by
  induction names with
  | nil => exact absurd rfl hne
  | cons a names ih =>
    cases names with
    | nil => rfl
    | cons b names =>
      rw [List.map_cons, List.map_cons, commaTokens, List.intersperse_cons_cons]
      show (names? (commaTokens ((b :: names).map .name) ++ [.mark ')'])).map (a :: ·) = _
      rw [ih (List.cons_ne_nil b names)]
      rfl

theorem numbers?_commaTokens {entries : List Rat} (hne : entries ≠ []) :
    numbers? (commaTokens (entries.map fun x => .number (Literal.write x)) ++ [.mark ')']) =
      some (entries.map Literal.write) := by
  induction entries with
  | nil => exact absurd rfl hne
  | cons x entries ih =>
    cases entries with
    | nil => rfl
    | cons y entries =>
      rw [List.map_cons, List.map_cons, commaTokens, List.intersperse_cons_cons]
      show (numbers? (commaTokens ((y :: entries).map fun x => .number (Literal.write x)) ++
        [.mark ')'])).map (Literal.write x :: ·) = _
      rw [ih (List.cons_ne_nil y entries)]
      rfl

/-- The tokens end a row, and the rows below it are the given ones. -/
structure RowEnd (tokens : List Token) (below : Option (List WrittenRow)) : Prop where
  plain : ∀ n, rows? (.number n :: tokens) = below.map (⟨[n], false⟩ :: ·)
  barred : ∀ n b, rows? (.number n :: .mark '|' :: .number b :: tokens) =
    below.map (⟨[n, b], true⟩ :: ·)

theorem rowEnd_last : RowEnd [.mark ']', .mark ']'] (some []) :=
  ⟨fun _ => rfl, fun _ _ => rfl⟩

theorem rowEnd_next (tokens : List Token) :
    RowEnd (.mark ']' :: .mark ',' :: .mark '[' :: tokens) (rows? tokens) :=
  ⟨fun _ => rfl, fun _ _ => rfl⟩

/-- A row as it is written. -/
def writtenRow (augmented : Bool) (row : List Rat) : WrittenRow :=
  ⟨row.map Literal.write, augmented⟩

/-- The shortest length of a row. -/
def minWidth (augmented : Bool) : Nat := if augmented then 2 else 1

theorem rows?_entryTokens {below : Option (List WrittenRow)} (htail : RowEnd tail below)
    {row : List Rat} (hrow : minWidth augmented ≤ row.length) :
    rows? (entryTokens augmented row ++ tail) = below.map (writtenRow augmented row :: ·) := by
  have hcons : ∀ n row (rows : Option (List WrittenRow)),
      (rows.map (row :: ·)).map (consNumber n) =
        rows.map ({ row with numbers := n :: row.numbers } :: ·) := by
    intro n row rows
    cases rows <;> rfl
  induction row using entryTokens.induct with
  | case1 => cases augmented <;> simp [minWidth] at hrow
  | case2 x =>
    cases augmented with
    | true => simp [minWidth] at hrow
    | false => exact htail.plain _
  | case3 x y =>
    cases augmented with
    | true => exact htail.barred _ _
    | false =>
      show (rows? (.number (Literal.write y) :: tail)).map (consNumber (Literal.write x)) = _
      rw [htail.plain, hcons]
      rfl
  | case4 x y z row ih =>
    have hrest : minWidth augmented ≤ (y :: z :: row).length := by
      cases augmented <;> simp [minWidth]
    show (rows? (entryTokens augmented (y :: z :: row) ++ tail)).map
      (consNumber (Literal.write x)) = _
    rw [ih hrest, hcons]
    rfl

theorem rows?_rowTokens {rows : List (List Rat)} (hne : rows ≠ [])
    (hrows : ∀ row ∈ rows, minWidth augmented ≤ row.length) :
    ∃ body, [Token.mark ','].intercalate (rows.map (rowTokens augmented)) ++ [.mark ']'] =
        .mark '[' :: body ∧
      rows? body = some (rows.map (writtenRow augmented)) := by
  induction rows with
  | nil => exact absurd rfl hne
  | cons row rows ih =>
    obtain ⟨hrow, hrows⟩ := List.forall_mem_cons.mp hrows
    cases rows with
    | nil =>
      refine ⟨entryTokens augmented row ++ [.mark ']', .mark ']'], ?_, ?_⟩
      · rw [List.map_singleton, List.intercalate_singleton, rowTokens, List.cons_append,
          List.append_assoc]
        rfl
      · rw [rows?_entryTokens rowEnd_last hrow]
        rfl
    | cons next rows =>
      obtain ⟨body, hbody, hread⟩ := ih (List.cons_ne_nil next rows) hrows
      refine ⟨entryTokens augmented row ++ .mark ']' :: .mark ',' :: .mark '[' :: body, ?_, ?_⟩
      · rw [← hbody, List.map_cons, List.map_cons, List.intercalate_cons_cons, rowTokens]
        simp only [List.cons_append, List.append_assoc, List.nil_append]
      · rw [rows?_entryTokens (rowEnd_next body) hrow, hread]
        rfl

/-! ## The meaning is what was written -/

theorem readNumbers_write (entries : List Rat) :
    readNumbers (entries.map Literal.write) = .ok entries :=
  mapM_map_eq_ok fun x _ => Literal.read_write x

theorem readMatrix_writtenRow {m : RatMatrix} (h : m.WellFormed) :
    readMatrix (m.rows.map (writtenRow m.augmented)) = .ok m := by
  have hvalues : ((m.rows.map (writtenRow m.augmented)).mapM fun row => readNumbers row.numbers) =
      .ok m.rows :=
    mapM_map_eq_ok fun row _ => readNumbers_write row
  have hbar : (((m.rows.map (writtenRow m.augmented)).head?.map (·.barred)).getD false) =
      m.augmented := by
    obtain ⟨row, rows, hrows⟩ := List.exists_cons_of_length_pos (h.2.2.1 ▸ h.1)
    rw [hrows]
    rfl
  have hbars : (m.rows.map (writtenRow m.augmented)).any (·.barred != m.augmented) = false := by
    simp [writtenRow]
  rw [readMatrix, hvalues, hbar]
  show (do
    if (m.rows.map (writtenRow m.augmented)).any (·.barred != m.augmented) then
      throw ProgramError.mixedBars
    (RatMatrix.ofRows m.rows m.augmented).mapError ProgramError.linear) = _
  rw [hbars, h.rectangular.ofRows_eq h.1 h.2.1]
  rfl

theorem readVector_write {v : RatVector} (h : v.WellFormed) :
    readVector (v.entries.map Literal.write) = .ok v := by
  have hne : v.entries.isEmpty = false := List.isEmpty_eq_false_iff.mpr h
  rw [readVector, readNumbers_write]
  show ((RatVector.ofList v.entries).mapError ProgramError.linear) = _
  rw [RatVector.ofList, hne]
  rfl

theorem ofSymbol?_operatorSymbol (op : BinaryOp) :
    BinaryOp.ofSymbol? (operatorSymbol op) = some op := by
  cases op <;> rfl

theorem ofName?_of_mem_spellings :
    ∀ spelling ∈ Builtin.spellings, Builtin.ofName? spelling.1 = some spelling.2 := by
  decide +kernel

theorem ne_listWord_of_mem_spellings :
    ∀ spelling ∈ Builtin.spellings, spelling.1 ≠ listWord := by
  decide +kernel

theorem OperationSpelled.clause (h : OperationSpelled operation tokens) :
    ∃ clause, Clause.ofTokens? tokens = some clause ∧ clause.toOperation = .ok operation := by
  cases h with
  | binary op hleft hright =>
    refine ⟨.binary op _ _, ?_, rfl⟩
    rw [Clause.ofTokens?, ofSymbol?_operatorSymbol]
    rfl
  | scaled factor hname =>
    refine ⟨.scaled (Literal.write factor) _, rfl, ?_⟩
    rw [Clause.toOperation, Literal.read_write]
    rfl
  | @call spelling function args hspelling hne hargs =>
    refine ⟨.call spelling args, ?_, ?_⟩
    · rw [Clause.ofTokens?, names?_commaTokens hne]
      rfl
    · rw [Clause.toOperation, ofName?_of_mem_spellings _ hspelling]
  | «show» hname => exact ⟨.show _, rfl, rfl⟩

/-- An operation that is assigned is taken for no literal, since it starts with no bracket. -/
theorem OperationSpelled.ofTokens?_assigned (h : OperationSpelled operation tokens) (name : Char) :
    Phrase.ofTokens? (.name name :: .mark '=' :: tokens) =
      (Clause.ofTokens? tokens).map (.bind name) := by
  cases h <;> rfl

/-- An operation is taken neither for the listing of all names nor for an assignment. -/
theorem OperationSpelled.ofTokens? (h : OperationSpelled operation tokens) :
    Phrase.ofTokens? tokens = (Clause.ofTokens? tokens).map .run := by
  cases h with
  | binary op => cases op <;> rfl
  | @call spelling function args hspelling =>
    have hhead : ¬some (Token.word spelling) = some (Token.word listWord) := fun heq =>
      ne_listWord_of_mem_spellings _ hspelling (Token.word.inj (Option.some.inj heq))
    unfold Phrase.ofTokens?
    exact if_neg hhead
  | scaled => rfl
  | «show» => rfl

theorem StatementSpelled.phrase (h : StatementSpelled statement tokens) :
    ∃ phrase, Phrase.ofTokens? tokens = some phrase ∧ phrase.toStatement = .ok statement := by
  cases h with
  | list => exact ⟨.list, rfl, rfl⟩
  | @matrix name m hname hm haugmented =>
    have hne : m.rows ≠ [] := List.ne_nil_of_length_pos (hm.2.2.1 ▸ hm.1)
    have hwidth : minWidth m.augmented ≤ m.shape.cols := by
      cases haug : m.augmented with
      | true => exact haugmented haug
      | false => exact hm.2.1
    obtain ⟨body, hbody, hread⟩ :=
      rows?_rowTokens hne fun row hrow => (hm.2.2.2 row hrow).symm ▸ hwidth
    refine ⟨.matrix name (m.rows.map (writtenRow m.augmented)), ?_, ?_⟩
    · rw [matrixTokens, hbody]
      show (rows? body).map (Phrase.matrix name) = _
      rw [hread]
      rfl
    · rw [Phrase.toStatement, readMatrix_writtenRow hm]
      rfl
  | @vector name v hname hv =>
    refine ⟨.vector name (v.entries.map Literal.write), ?_, ?_⟩
    · show (numbers? _).map (Phrase.vector name) = _
      rw [numbers?_commaTokens hv]
      rfl
    · rw [Phrase.toStatement, readVector_write hv]
      rfl
  | @bind name operation tokens hname h =>
    obtain ⟨clause, hclause, hmeaning⟩ := h.clause
    refine ⟨.bind name clause, ?_, ?_⟩
    · rw [h.ofTokens?_assigned, hclause]
      rfl
    · rw [Phrase.toStatement, hmeaning]
      rfl
  | run h =>
    obtain ⟨clause, hclause, hmeaning⟩ := h.clause
    refine ⟨.run clause, ?_, ?_⟩
    · rw [h.ofTokens?, hclause]
      rfl
    · rw [Phrase.toStatement, hmeaning]
      rfl

end Command

end ExactLinear
