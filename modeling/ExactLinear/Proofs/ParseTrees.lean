import ExactLinear.Command.Tree
import ExactLinear.Proofs.TokenForms

/-!
# Statements from parse trees

`Phrase.IsTree` says which trees the grammar gives for a phrase, and every phrase of a text has one
(`exists_isProgramTree`). On these trees all the checks of `statementOf` pass, and the statement is
the meaning of the phrase (`statementOf_eq`), so a program that is read from its trees fails only as
`readProgram` does (`programOf_eq`).
-/

namespace ExactLinear.Command

/-! ## The trees that belong to a phrase -/

def nameTree (name : Char) : Tree := .leaf .name name.toString

def numberTree (number : String) : Tree := .leaf .number number

/-- The tree of a row: a bar stands before the last number. -/
inductive WrittenRow.IsTree : WrittenRow → Tree → Prop where
  | plain (numbers : List String) (text : String) :
    IsTree ⟨numbers, false⟩ ⟨.matrixRow, text, numbers.map numberTree⟩
  | barred (numbers : List String) (last text : String) :
    IsTree ⟨numbers ++ [last], true⟩
      ⟨.matrixRow, text, numbers.map numberTree ++ [.leaf .bar "|", numberTree last]⟩

/-- The tree of a clause. -/
inductive Clause.IsTree : Clause → Tree → Prop where
  | show (name : Char) : IsTree (.show name) (nameTree name)
  | binary {op : BinaryOp} {symbol : Char} (h : BinaryOp.ofSymbol? symbol = some op)
      (left right : Char) (text : String) :
    IsTree (.binary op left right)
      ⟨.binary, text, [nameTree left, .leaf .operator symbol.toString, nameTree right]⟩
  | scaled (factor : String) (name : Char) (text : String) :
    IsTree (.scaled factor name) ⟨.scaled, text, [numberTree factor, nameTree name]⟩
  | call (function : String) (args : List Char) (text : String) :
    IsTree (.call function args) ⟨.call, text, .leaf .function function :: args.map nameTree⟩

/-- The tree of a phrase. -/
inductive Phrase.IsTree : Phrase → Tree → Prop where
  | list : IsTree .list (.leaf .list listWord)
  | matrix {rows : List WrittenRow} {trees : List Tree} (name : Char)
      (h : List.Forall₂ WrittenRow.IsTree rows trees) (text literal : String) :
    IsTree (.matrix name rows)
      ⟨.assignment, text, [nameTree name, ⟨.matrixLiteral, literal, trees⟩]⟩
  | vector (name : Char) (numbers : List String) (text literal : String) :
    IsTree (.vector name numbers)
      ⟨.assignment, text, [nameTree name, ⟨.vectorLiteral, literal, numbers.map numberTree⟩]⟩
  | bind {clause : Clause} {tree : Tree} (name : Char) (h : clause.IsTree tree) (text : String) :
    IsTree (.bind name clause) ⟨.assignment, text, [nameTree name, tree]⟩
  | run {clause : Clause} {tree : Tree} (h : clause.IsTree tree) : IsTree (.run clause) tree

/-- The tree of a program has the trees of its phrases and the end of the input. -/
inductive IsProgramTree (phrases : List Phrase) : List Tree → Prop where
  | intro {trees : List Tree} (h : List.Forall₂ Phrase.IsTree phrases trees) (text : String) :
    IsProgramTree phrases [⟨.program, text, trees ++ [.leaf .endOfInput ""]⟩]

/-! ## Every phrase has a tree -/

theorem exists_forall₂ {α β : Type} {R : α → β → Prop} {l : List α} (h : ∀ a ∈ l, ∃ b, R a b) :
    ∃ bs, List.Forall₂ R l bs := by
  induction l with
  | nil => exact ⟨[], .nil⟩
  | cons a l ih =>
    obtain ⟨⟨b, hb⟩, hl⟩ := List.forall_mem_cons.mp h
    obtain ⟨bs, hbs⟩ := ih hl
    exact ⟨b :: bs, .cons hb hbs⟩

theorem WrittenRow.exists_isTree {row : WrittenRow} (h : row.numbers ≠ []) :
    ∃ tree, row.IsTree tree := by
  obtain ⟨numbers, barred⟩ := row
  cases barred with
  | false => exact ⟨_, .plain numbers ""⟩
  | true =>
    obtain ⟨front, last, rfl⟩ := (List.eq_nil_or_concat' numbers).resolve_left h
    exact ⟨_, .barred front last ""⟩

/-- Every operator has a symbol. -/
theorem exists_symbol (op : BinaryOp) : ∃ symbol, BinaryOp.ofSymbol? symbol = some op := by
  cases op with
  | plus => exact ⟨'+', rfl⟩
  | minus => exact ⟨'-', rfl⟩
  | times => exact ⟨'*', rfl⟩
  | dot => exact ⟨'.', rfl⟩

theorem Clause.exists_isTree (clause : Clause) : ∃ tree, clause.IsTree tree := by
  cases clause with
  | «show» name => exact ⟨_, .show name⟩
  | binary op left right =>
    obtain ⟨symbol, h⟩ := exists_symbol op
    exact ⟨_, .binary h left right ""⟩
  | scaled factor name => exact ⟨_, .scaled factor name ""⟩
  | call function args => exact ⟨_, .call function args ""⟩

theorem Phrase.exists_isTree {phrase : Phrase} (h : phrase.WellFormed) :
    ∃ tree, phrase.IsTree tree := by
  cases phrase with
  | list => exact ⟨_, .list⟩
  | matrix name rows =>
    obtain ⟨trees, htrees⟩ :=
      exists_forall₂ fun row hrow => WrittenRow.exists_isTree (h.2.2 row hrow).1
    exact ⟨_, .matrix name htrees "" ""⟩
  | vector name numbers => exact ⟨_, .vector name numbers "" ""⟩
  | bind name clause =>
    obtain ⟨tree, htree⟩ := clause.exists_isTree
    exact ⟨_, .bind name htree ""⟩
  | run clause =>
    obtain ⟨tree, htree⟩ := clause.exists_isTree
    exact ⟨tree, .run htree⟩

/-- Every text that follows the grammar has a tree. -/
theorem exists_isProgramTree {text : String} {phrases : List Phrase}
    (h : phrases? text = some phrases) : ∃ trees, IsProgramTree phrases trees := by
  obtain ⟨trees, htrees⟩ := exists_forall₂ fun phrase hphrase =>
    Phrase.exists_isTree (wellFormed_of_phrases? h phrase hphrase)
  exact ⟨_, .intro htrees text⟩

/-! ## The trees of phrases -/

theorem numbersOf_eq {tree : Tree} {numbers : List String}
    (h : tree.children.filter (·.rule = .number) = numbers.map numberTree) :
    numbersOf tree = (readNumbers numbers).mapError .linear := by
  rw [numbersOf, h, List.mapM_map]
  exact mapM_mapError _ _ numbers

theorem filter_numberTree (numbers : List String) :
    (numbers.map numberTree).filter (·.rule = .number) = numbers.map numberTree := by
  refine List.filter_eq_self.mpr fun tree htree => ?_
  obtain ⟨number, -, rfl⟩ := List.mem_map.mp htree
  rfl

theorem vectorOf_eq (numbers : List String) (text : String) :
    vectorOf ⟨.vectorLiteral, text, numbers.map numberTree⟩ =
      (readVector numbers).mapError .program := by
  rw [vectorOf, numbersOf_eq (filter_numberTree numbers), readVector]
  cases readNumbers numbers with
  | error e => rfl
  | ok entries =>
    show (RatVector.ofList entries).mapError _ = ((RatVector.ofList entries).mapError _).mapError _
    cases RatVector.ofList entries <;> rfl

namespace WrittenRow.IsTree

variable {row : WrittenRow} {tree : Tree}

theorem numbersOf_eq (h : row.IsTree tree) :
    numbersOf tree = (readNumbers row.numbers).mapError .linear := by
  cases h with
  | plain numbers text => exact Command.numbersOf_eq (filter_numberTree numbers)
  | barred numbers last text =>
    refine Command.numbersOf_eq ?_
    rw [List.filter_append, filter_numberTree, List.map_append]
    rfl

theorem any_bar (h : row.IsTree tree) : tree.children.any (·.rule = .bar) = row.barred := by
  cases h with
  | plain numbers text =>
    rw [List.any_map]
    exact List.any_eq_false.mpr fun number _ => Bool.false_ne_true
  | barred numbers last text => simp [Tree.leaf]

end WrittenRow.IsTree

theorem matrixOf_eq {rows : List WrittenRow} {trees : List Tree}
    (h : List.Forall₂ WrittenRow.IsTree rows trees) (text : String) :
    matrixOf ⟨.matrixLiteral, text, trees⟩ = (readMatrix rows).mapError .program := by
  have hbars : trees.map (fun row => row.children.any (·.rule = .bar)) = rows.map (·.barred) := by
    induction h with
    | nil => rfl
    | cons hrow _ ih => rw [List.map_cons, List.map_cons, hrow.any_bar, ih]
  have hvalues : trees.mapM numbersOf =
      (rows.mapM fun row => readNumbers row.numbers).mapError .linear := by
    rw [← mapM_mapError]
    clear hbars
    induction h with
    | nil => rfl
    | cons hrow _ ih => rw [List.mapM_cons, List.mapM_cons, hrow.numbersOf_eq, ih]
  unfold matrixOf readMatrix
  simp only [hbars, hvalues, List.head?_map, List.any_map, Function.comp_def]
  cases rows.mapM fun row => readNumbers row.numbers with
  | error e => rfl
  | ok values =>
    simp only [Except.mapError, bind, Except.bind]
    split_ifs
    · rfl
    · cases RatMatrix.ofRows values _ <;> rfl

/-! ## The meaning -/

theorem operatorOf_eq {op : BinaryOp} {symbol : Char} (h : BinaryOp.ofSymbol? symbol = some op) :
    operatorOf symbol.toString = op := by
  unfold BinaryOp.ofSymbol? at h
  split at h <;> cases h <;> rfl

theorem functionOf_eq (function : String) (args : List Char) :
    (do return .call (← functionOf function) (args.map Char.toString)) =
      ((Clause.call function args).toOperation).mapError TreeError.program := by
  rw [functionOf, Clause.toOperation]
  cases Builtin.ofName? function <;> rfl

/-- The operation of a clause is its meaning. -/
theorem operationOf_eq {clause : Clause} {tree : Tree} (h : clause.IsTree tree) :
    operationOf tree = clause.toOperation.mapError .program := by
  cases h with
  | «show» name => rfl
  | binary hop left right text =>
    rw [← operatorOf_eq hop]
    rfl
  | scaled factor name text =>
    rw [Clause.toOperation]
    show (do
      let k ← (Literal.read factor).mapError TreeError.linear
      return Operation.scaled k name.toString) = _
    cases Literal.read factor <;> rfl
  | call function args text =>
    rw [← functionOf_eq]
    show (do return Operation.call (← functionOf function) ((args.map nameTree).map Tree.text)) = _
    rw [List.map_map]
    rfl

theorem statementOf_eq_run {clause : Clause} {tree : Tree} (h : clause.IsTree tree) :
    statementOf tree = do return .run (← operationOf tree) := by
  cases h <;> rfl

theorem statementOf_eq_bind {clause : Clause} {tree : Tree} (h : clause.IsTree tree) (name : Char)
    (text : String) : statementOf ⟨.assignment, text, [nameTree name, tree]⟩ =
      do return .bind name.toString (← operationOf tree) := by
  cases h <;> rfl

/-- The statement of a phrase is its meaning. -/
theorem statementOf_eq {phrase : Phrase} {tree : Tree} (h : phrase.IsTree tree) :
    statementOf tree = phrase.toStatement.mapError .program := by
  cases h with
  | list => rfl
  | matrix name h text literal =>
    show (do return Statement.define name.toString (.matrix (← matrixOf _))) = _
    rw [matrixOf_eq h, Phrase.toStatement]
    cases readMatrix _ <;> rfl
  | vector name numbers text literal =>
    show (do return Statement.define name.toString (.vector (← vectorOf _))) = _
    rw [vectorOf_eq, Phrase.toStatement]
    cases readVector numbers <;> rfl
  | bind name h text =>
    rw [statementOf_eq_bind h, operationOf_eq h, Phrase.toStatement]
    cases Clause.toOperation _ <;> rfl
  | run h =>
    rw [statementOf_eq_run h, operationOf_eq h, Phrase.toStatement]
    cases Clause.toOperation _ <;> rfl

/-- A phrase is no end of the input. -/
theorem Phrase.IsTree.rule_ne {phrase : Phrase} {tree : Tree} (h : phrase.IsTree tree) :
    tree.rule ≠ .endOfInput := by
  cases h with
  | run h => cases h <;> exact nofun
  | _ => exact nofun

/-- The end of the input is passed over, and nothing else. -/
theorem filter_append_endOfInput {phrases : List Phrase} {trees : List Tree}
    (h : List.Forall₂ Phrase.IsTree phrases trees) :
    (trees ++ [Tree.leaf .endOfInput ""]).filter (fun tree => tree.rule ≠ .endOfInput) = trees := by
  induction h with
  | nil => rfl
  | cons hphrase _ ih =>
    rw [List.cons_append, List.filter_cons_of_pos (by simpa using hphrase.rule_ne), ih]

theorem mapM_statementOf {phrases : List Phrase} {trees : List Tree}
    (h : List.Forall₂ Phrase.IsTree phrases trees) :
    trees.mapM statementOf = (phrases.mapM Phrase.toStatement).mapError .program := by
  rw [← mapM_mapError]
  induction h with
  | nil => rfl
  | cons hphrase _ ih => rw [List.mapM_cons, List.mapM_cons, statementOf_eq hphrase, ih]

/-- A program is read from its trees as it is read from its text: none of the failures that only a
tree can cause ever happens. -/
theorem programOf_eq {text : String} {phrases : List Phrase} {trees : List Tree}
    (hphrases : phrases? text = some phrases) (h : IsProgramTree phrases trees) :
    programOf trees = (readProgram text).mapError .program := by
  cases h with
  | @intro statements hstatements covered =>
    show List.mapM statementOf (List.filter _ _) = _
    rw [filter_append_endOfInput hstatements, mapM_statementOf hstatements, readProgram, hphrases]

end ExactLinear.Command
