import ExactLinear.Proofs.GrammarLists

/-!
# Statements of the grammar as phrases

The rule for statements takes a text if and only if the text has the tokens of a phrase. It never
asks what follows, so in one direction (`takes_statement`) no other token may follow (`Stops`): the
first alternative that matches has then taken everything. The alternatives before it fail at their
first token or at the equals sign of an assignment.
-/

namespace ExactLinear.Command

open Peg Grammar

variable {c d : Char} {s mid rest : List Char} {t : Token} {tokens : List Token}
  {trees : List Tree} {what : Clause} {phrase : Phrase}

/-! ## Clauses -/

/-- The tokens of a clause. -/
inductive ClauseTokens : Clause → List Token → Prop where
  | show (a : Char) : ClauseTokens (.show a) [.name a]
  | binary {c : Char} {op : BinaryOp} (a b : Char) (h : BinaryOp.ofSymbol? c = some op) :
    ClauseTokens (.binary op a b) [.name a, .mark c, .name b]
  | scaled (n : String) (a : Char) : ClauseTokens (.scaled n a) [.number n, .mark '*', .name a]
  | call {tokens : List Token} {names : List Char} (f : String) (h : names? tokens = some names) :
    ClauseTokens (.call f names) (.word f :: .mark '(' :: tokens)

theorem Clause.ofTokens?_eq_some_iff : Clause.ofTokens? tokens = some what ↔
    ClauseTokens what tokens := by
  constructor
  · intro h
    unfold Clause.ofTokens? at h
    split at h
    · cases h
      exact .show _
    · obtain ⟨op, hop, rfl⟩ := Option.map_eq_some_iff.mp h
      exact .binary _ _ hop
    · cases h
      exact .scaled _ _
    · obtain ⟨names, hnames, rfl⟩ := Option.map_eq_some_iff.mp h
      exact .call _ hnames
    · cases h
  · intro h
    cases h with
    | «show» a => rfl
    | binary a b hop =>
      show (BinaryOp.ofSymbol? _).map _ = _
      rw [hop]
      rfl
    | scaled n a => rfl
    | call f hnames =>
      show (names? _).map _ = _
      rw [hnames]
      rfl

/-- A clause starts with no mark. -/
theorem ClauseTokens.exists_cons (h : ClauseTokens what tokens) :
    ∃ t more, tokens = t :: more ∧ ∀ c, t ≠ .mark c := by
  cases h <;> exact ⟨_, _, rfl, nofun⟩

/-- The text has no token behind the blanks and the comment at its front. -/
def Stops (s : List Char) : Prop := ∀ t rest, ¬Scans (skipped s) t rest

/-- A minus sign before a name is no sign of a number. -/
theorem Scans.ends_isDigit {a : Char} (h : Scans (skipped s) (.name a) rest) :
    Ends Char.isDigit s := by
  cases s with
  | nil => exact .nil _
  | cons c s =>
    refine Ends.cons (Bool.eq_false_iff.mpr fun hc => ?_) s
    -- a digit is not skipped, and is no letter
    have hends : Ends isSkipped (c :: s) := .cons (by
      rw [isSkipped, isSpace_eq_false_of_isDigit hc, Bool.false_or, decide_eq_false_iff_not]
      rintro rfl
      cases hc) s
    rw [skipped_of_ends hends] at h
    obtain ⟨heq, halpha⟩ := h.eq_cons
    cases heq
    rw [isDigit_eq_false_of_isAlpha halpha] at hc
    cases hc

theorem call_of_takes (h : call.Takes s trees rest) : ∃ tokens f names tree,
    Reads s tokens rest ∧ ClauseTokens (.call f names) tokens ∧
      Clause.IsTree (.call f names) tree ∧ trees = [tree] := by
  obtain ⟨children, text, hparts, rfl⟩ := takes_node h
  obtain ⟨_, mid, _, hfunction, hargs, rfl⟩ := takes_parts.mp hparts
  obtain ⟨f, hf, rfl⟩ := parse_function_eq_some_iff.mp hfunction
  obtain ⟨_, inside, _, hopen, hlist, rfl⟩ := takes_parts.mp hargs
  obtain ⟨hparen, rfl⟩ := scans_of_takes_mark hopen
  obtain ⟨tokens, names, hreads, hnames, rfl⟩ := readsItems_names.takes_list_iff.mp hlist
  exact ⟨_, f, names, _, .cons hf (.cons hparen hreads), .call f hnames, .call f names text, rfl⟩

theorem binary_of_takes (h : binary.Takes s trees rest) : ∃ tokens op a b tree,
    Reads s tokens rest ∧ ClauseTokens (.binary op a b) tokens ∧
      Clause.IsTree (.binary op a b) tree ∧ trees = [tree] := by
  obtain ⟨children, text, hparts, rfl⟩ := takes_node h
  obtain ⟨_, mid, _, hleft, hrest, rfl⟩ := takes_parts.mp hparts
  obtain ⟨a, ha, rfl⟩ := parse_name_eq_some_iff.mp hleft
  obtain ⟨_, last, _, hoperator, hright, rfl⟩ := takes_parts.mp hrest
  obtain ⟨c, op, hc, hop, rfl⟩ := parse_operator_eq_some_iff.mp hoperator
  obtain ⟨b, hb, rfl⟩ := parse_name_eq_some_iff.mp hright
  have hmark : Scans (skipped mid) (.mark c) last :=
    hc ▸ .mark (mem_marks_of_ofSymbol? hop) fun _ => hb.ends_isDigit
  exact ⟨_, op, a, b, _, .cons ha (.cons hmark (.cons hb (.nil _))), .binary a b hop,
    .binary hop a b text, rfl⟩

theorem scaled_of_takes (h : scaled.Takes s trees rest) : ∃ tokens n a tree,
    Reads s tokens rest ∧ ClauseTokens (.scaled n a) tokens ∧
      Clause.IsTree (.scaled n a) tree ∧ trees = [tree] := by
  obtain ⟨children, text, hparts, rfl⟩ := takes_node h
  obtain ⟨_, mid, _, hnumber, hrest, rfl⟩ := takes_parts.mp hparts
  obtain ⟨n, hn, rfl⟩ := parse_number_eq_some_iff.mp hnumber
  obtain ⟨_, last, _, hmark, hname, rfl⟩ := takes_parts.mp hrest
  obtain ⟨hstar, rfl⟩ := scans_of_takes_mark hmark
  obtain ⟨a, ha, rfl⟩ := parse_name_eq_some_iff.mp hname
  exact ⟨_, n, a, _, .cons hn (.cons hstar (.cons ha (.nil _))), .scaled n a, .scaled n a text, rfl⟩

/-- What is taken as a clause has the tokens of a clause. -/
theorem clause_of_takes (h : clause.Takes s trees rest) : ∃ tokens what tree,
    Reads s tokens rest ∧ ClauseTokens what tokens ∧ what.IsTree tree ∧ trees = [tree] := by
  obtain h | ⟨-, h⟩ := takes_choice.mp h
  · obtain ⟨tokens, f, names, h⟩ := call_of_takes h
    exact ⟨tokens, _, h⟩
  obtain h | ⟨-, h⟩ := takes_choice.mp h
  · obtain ⟨tokens, op, a, b, h⟩ := binary_of_takes h
    exact ⟨tokens, _, h⟩
  obtain h | ⟨-, h⟩ := takes_choice.mp h
  · obtain ⟨tokens, n, a, h⟩ := scaled_of_takes h
    exact ⟨tokens, _, h⟩
  obtain ⟨a, ha, rfl⟩ := parse_name_eq_some_iff.mp h
  exact ⟨_, .show a, _, .cons ha (.nil _), .show a, .show a, rfl⟩

/-- An expression fails where it would need another token. -/
theorem fails_of_scans {e : Peg} (h : Scans (skipped s) t mid)
    (hhead : ∀ trees rest, e.Takes s trees rest → ∃ u more, Scans (skipped s) u more ∧ u ≠ t) :
    e.Fails s := by
  refine fails_iff.mpr fun trees rest htakes => ?_
  obtain ⟨u, more, hu, hne⟩ := hhead trees rest htakes
  exact hne (hu.unique h).1

theorem fails_call (h : Scans (skipped s) t mid) (hne : ∀ f, t ≠ .word f) : call.Fails s := by
  refine fails_of_scans h fun trees rest htakes => ?_
  obtain ⟨_, f, names, _, hreads, ⟨⟩, -⟩ := call_of_takes htakes
  obtain ⟨_, hf, -⟩ := reads_cons_iff.mp hreads
  exact ⟨_, _, hf, (hne f).symm⟩

theorem fails_binary (h : Scans (skipped s) t mid) (hne : ∀ a, t ≠ .name a) : binary.Fails s := by
  refine fails_of_scans h fun trees rest htakes => ?_
  obtain ⟨_, op, a, b, _, hreads, ⟨⟩, -⟩ := binary_of_takes htakes
  obtain ⟨_, ha, -⟩ := reads_cons_iff.mp hreads
  exact ⟨_, _, ha, (hne a).symm⟩

theorem fails_scaled (h : Scans (skipped s) t mid) (hne : ∀ n, t ≠ .number n) :
    scaled.Fails s := by
  refine fails_of_scans h fun trees rest htakes => ?_
  obtain ⟨_, n, a, _, hreads, ⟨⟩, -⟩ := scaled_of_takes htakes
  obtain ⟨_, hn, -⟩ := reads_cons_iff.mp hreads
  exact ⟨_, _, hn, (hne n).symm⟩

/-- A name alone is no binary operation, if no token follows it. -/
theorem fails_binary_of_stops {a : Char} (h : Scans (skipped s) (.name a) rest)
    (hstops : Stops rest) : binary.Fails s := by
  refine fails_iff.mpr fun trees last htakes => ?_
  obtain ⟨_, op, a', b, _, hreads, ⟨⟩, -⟩ := binary_of_takes htakes
  obtain ⟨mid, ha, hreads⟩ := reads_cons_iff.mp hreads
  obtain ⟨_, hmark, -⟩ := reads_cons_iff.mp hreads
  obtain ⟨-, rfl⟩ := ha.unique h
  exact hstops _ _ hmark

/-- The tokens of a clause are taken, if no token follows them. -/
theorem takes_clause (h : ClauseTokens what tokens) (hreads : Reads s tokens rest)
    (hstops : Stops rest) : ∃ trees, clause.Takes s trees rest := by
  cases h with
  | «show» a =>
    obtain ⟨mid, ha, hreads⟩ := reads_cons_iff.mp hreads
    obtain rfl := reads_nil_iff.mp hreads
    have hname := parse_name_eq_some_iff.mpr ⟨a, ha, rfl⟩
    exact ⟨_, takes_choice.mpr (.inr ⟨fails_call ha nofun, takes_choice.mpr (.inr
      ⟨fails_binary_of_stops ha hstops, takes_choice.mpr (.inr ⟨fails_scaled ha nofun, hname⟩)⟩)⟩)⟩
  | binary a b hop =>
    obtain ⟨mid, ha, hreads⟩ := reads_cons_iff.mp hreads
    obtain ⟨last, hmark, hreads⟩ := reads_cons_iff.mp hreads
    obtain ⟨_, hb, hreads⟩ := reads_cons_iff.mp hreads
    obtain rfl := reads_nil_iff.mp hreads
    have hoperator : operator.Takes mid _ last :=
      parse_operator_eq_some_iff.mpr ⟨_, _, hmark.eq_cons_of_mark, hop, rfl⟩
    have hparts : (parts [name, operator, name]).Takes s _ _ :=
      takes_parts.mpr ⟨_, mid, _, parse_name_eq_some_iff.mpr ⟨a, ha, rfl⟩,
        takes_parts.mpr ⟨_, last, _, hoperator, parse_name_eq_some_iff.mpr ⟨b, hb, rfl⟩, rfl⟩, rfl⟩
    obtain ⟨text, htakes⟩ := exists_takes_node .binary hparts
    exact ⟨_, takes_choice.mpr (.inr ⟨fails_call ha nofun, takes_choice.mpr (.inl htakes)⟩)⟩
  | scaled n a =>
    obtain ⟨mid, hn, hreads⟩ := reads_cons_iff.mp hreads
    obtain ⟨last, hstar, hreads⟩ := reads_cons_iff.mp hreads
    obtain ⟨_, ha, hreads⟩ := reads_cons_iff.mp hreads
    obtain rfl := reads_nil_iff.mp hreads
    have hfactor : (parts [mark '*', name]).Takes mid _ _ :=
      takes_parts.mpr ⟨_, last, _, takes_mark hstar, parse_name_eq_some_iff.mpr ⟨a, ha, rfl⟩, rfl⟩
    have hparts : (parts [number, mark '*', name]).Takes s _ _ :=
      takes_parts.mpr ⟨_, mid, _, parse_number_eq_some_iff.mpr ⟨n, hn, rfl⟩, hfactor, rfl⟩
    obtain ⟨text, htakes⟩ := exists_takes_node .scaled hparts
    exact ⟨_, takes_choice.mpr (.inr ⟨fails_call hn nofun, takes_choice.mpr (.inr
      ⟨fails_binary hn nofun, takes_choice.mpr (.inl htakes)⟩)⟩)⟩
  | call f hnames =>
    obtain ⟨mid, hf, hreads⟩ := reads_cons_iff.mp hreads
    obtain ⟨inside, hparen, hreads⟩ := reads_cons_iff.mp hreads
    have hlist := readsItems_names.takes_list_iff.mpr ⟨_, _, hreads, hnames, rfl⟩
    have hparts : (parts [function, mark '(', name, many (parts [mark ',', name]), mark ')']).Takes
        s _ _ :=
      takes_parts.mpr ⟨_, mid, _, parse_function_eq_some_iff.mpr ⟨f, hf, rfl⟩,
        takes_parts.mpr ⟨_, inside, _, takes_mark hparen, hlist, rfl⟩, rfl⟩
    obtain ⟨text, htakes⟩ := exists_takes_node .call hparts
    exact ⟨_, takes_choice.mpr (.inl htakes)⟩

/-! ## Statements -/

/-- The tokens of a phrase. -/
inductive PhraseTokens : Phrase → List Token → Prop where
  | list : PhraseTokens .list [.word listWord]
  | matrix {rows : List WrittenRow} {tokens : List Token} (a : Char) (h : RowsTokens rows tokens) :
    PhraseTokens (.matrix a rows) (.name a :: .mark '=' :: .mark '[' :: .mark '[' :: tokens)
  | vector {numbers : List String} {tokens : List Token} (a : Char)
      (h : numbers? tokens = some numbers) :
    PhraseTokens (.vector a numbers) (.name a :: .mark '=' :: .mark '(' :: tokens)
  | bind {what : Clause} {tokens : List Token} (a : Char) (h : ClauseTokens what tokens) :
    PhraseTokens (.bind a what) (.name a :: .mark '=' :: tokens)
  | run {what : Clause} {tokens : List Token} (h : ClauseTokens what tokens)
      (hhead : tokens.head? ≠ some (.word listWord)) : PhraseTokens (.run what) tokens

theorem Phrase.ofTokens?_eq_some_iff : Phrase.ofTokens? tokens = some phrase ↔
    PhraseTokens phrase tokens := by
  constructor
  · intro h
    unfold Phrase.ofTokens? at h
    split_ifs at h with hhead hlength
    · cases h
      obtain ⟨t, rfl⟩ := List.length_eq_one_iff.mp hlength
      cases hhead
      exact .list
    · split at h
      · obtain ⟨rows, hrows, rfl⟩ := Option.map_eq_some_iff.mp h
        exact .matrix _ (rows?_eq_some_iff.mp hrows)
      · obtain ⟨numbers, hnumbers, rfl⟩ := Option.map_eq_some_iff.mp h
        exact .vector _ hnumbers
      · obtain ⟨what, hwhat, rfl⟩ := Option.map_eq_some_iff.mp h
        exact .bind _ (Clause.ofTokens?_eq_some_iff.mp hwhat)
      · obtain ⟨what, hwhat, rfl⟩ := Option.map_eq_some_iff.mp h
        exact .run (Clause.ofTokens?_eq_some_iff.mp hwhat) hhead
  · intro h
    cases h with
    | list => rfl
    | matrix a hrows =>
      show (rows? _).map _ = _
      rw [rows?_eq_some_iff.mpr hrows]
      rfl
    | vector a hnumbers =>
      show (numbers? _).map _ = _
      rw [hnumbers]
      rfl
    | @bind what tokens a hwhat =>
      have hclause := Clause.ofTokens?_eq_some_iff.mpr hwhat
      have hbind : Phrase.ofTokens? (.name a :: .mark '=' :: tokens) =
          (Clause.ofTokens? tokens).map (Phrase.bind a) := by
        cases hwhat <;> rfl
      rw [hbind, hclause]
      rfl
    | run hwhat hhead =>
      have hclause := Clause.ofTokens?_eq_some_iff.mpr hwhat
      have hrun : Phrase.ofTokens? tokens = (Clause.ofTokens? tokens).map Phrase.run := by
        unfold Phrase.ofTokens?
        rw [if_neg hhead]
        cases hwhat with
        | binary a b hop =>
          -- an equals sign is no operator
          have hmem := exists_ofSymbol?_iff.mp ⟨_, hop⟩
          simp only [List.mem_cons, List.not_mem_nil, or_false] at hmem
          obtain rfl | rfl | rfl | rfl := hmem <;> rfl
        | _ => rfl
      rw [hrun, hclause]
      rfl

theorem assignment_of_takes (h : assignment.Takes s trees rest) : ∃ tokens phrase tree,
    Reads s tokens rest ∧ PhraseTokens phrase tokens ∧ phrase.IsTree tree ∧ trees = [tree] ∧
      ∃ a more, tokens = .name a :: .mark '=' :: more := by
  obtain ⟨children, text, hparts, rfl⟩ := takes_node h
  obtain ⟨_, mid, _, hname, hrest, rfl⟩ := takes_parts.mp hparts
  obtain ⟨a, ha, rfl⟩ := parse_name_eq_some_iff.mp hname
  obtain ⟨_, value, _, hequals, hvalue, rfl⟩ := takes_parts.mp hrest
  obtain ⟨heq, rfl⟩ := scans_of_takes_mark hequals
  obtain hmatrix | ⟨-, hvalue⟩ := takes_choice.mp hvalue
  · obtain ⟨rows, literal, hinside, rfl⟩ := takes_node hmatrix
    obtain ⟨_, inside, trees, hopen, hlist, rfl⟩ := takes_parts.mp hinside
    obtain ⟨hbracket, rfl⟩ := scans_of_takes_mark hopen
    obtain ⟨rows, tokens, hrows, hreads, htrees⟩ := rows_of_listed
      ((takes_listed fun _ _ => fails_of_comma (by decide)).mp hlist)
    exact ⟨_, _, _, .cons ha (.cons heq (.cons hbracket hreads)), .matrix a hrows,
      .matrix a htrees text literal, rfl, a, _, rfl⟩
  obtain hvector | ⟨-, hclause⟩ := takes_choice.mp hvalue
  · obtain ⟨numbers, literal, hinside, rfl⟩ := takes_node hvector
    obtain ⟨_, inside, trees, hopen, hlist, rfl⟩ := takes_parts.mp hinside
    obtain ⟨hparen, rfl⟩ := scans_of_takes_mark hopen
    obtain ⟨tokens, numbers, hreads, hnumbers, rfl⟩ := readsItems_numbers.takes_list_iff.mp hlist
    exact ⟨_, _, _, .cons ha (.cons heq (.cons hparen hreads)), .vector a hnumbers,
      .vector a numbers text literal, rfl, a, _, rfl⟩
  · obtain ⟨tokens, what, tree, hreads, hwhat, htree, rfl⟩ := clause_of_takes hclause
    exact ⟨_, _, _, .cons ha (.cons heq hreads), .bind a hwhat, .bind a htree text, rfl, a, _, rfl⟩

/-- **What is taken as a statement has the tokens of a phrase.** -/
theorem phrase_of_takes (h : statement.Takes s trees rest) : ∃ tokens phrase tree,
    Reads s tokens rest ∧ PhraseTokens phrase tokens ∧ phrase.IsTree tree ∧ trees = [tree] := by
  obtain hlist | ⟨hfails, h⟩ := takes_choice.mp h
  · obtain ⟨hword, rfl⟩ := parse_list_eq_some_iff.mp hlist
    exact ⟨_, _, _, .cons hword (.nil _), .list, .list, rfl⟩
  obtain hassignment | ⟨-, hclause⟩ := takes_choice.mp h
  · obtain ⟨tokens, phrase, tree, hreads, hphrase, htree, rfl, -⟩ := assignment_of_takes hassignment
    exact ⟨tokens, phrase, tree, hreads, hphrase, htree, rfl⟩
  · obtain ⟨tokens, what, tree, hreads, hwhat, htree, rfl⟩ := clause_of_takes hclause
    refine ⟨tokens, _, tree, hreads, .run hwhat fun hhead => ?_, .run htree, rfl⟩
    obtain ⟨more, rfl⟩ := List.head?_eq_some_iff.mp hhead
    obtain ⟨_, hword, -⟩ := reads_cons_iff.mp hreads
    exact fails_iff.mp hfails _ _ (parse_list_eq_some_iff.mpr ⟨hword, rfl⟩)

theorem fails_list (h : Scans (skipped s) t mid) (hne : t ≠ .word listWord) : list.Fails s :=
  fails_of_scans h fun _ _ htakes =>
    ⟨_, _, (parse_list_eq_some_iff.mp htakes).1, hne.symm⟩

theorem fails_bracketed {e : Peg} {rule : Rule} {es : List Peg} (hc : c ∈ marks ∧ c ≠ '-')
    (h : Scans (skipped s) t mid) (hne : t ≠ .mark c) :
    (node rule (parts (mark c :: e :: es))).Fails s := by
  refine fails_of_scans h fun _ _ htakes => ?_
  obtain ⟨_, _, hparts, -⟩ := takes_node htakes
  obtain ⟨_, _, _, hmark, -, -⟩ := takes_parts.mp hparts
  exact ⟨_, _, (scans_of_takes_mark hmark hc).1, hne.symm⟩

/-- A clause is no assignment, since no equals sign follows its first name. -/
theorem fails_assignment (h : ClauseTokens what tokens) (hreads : Reads s tokens rest)
    (hstops : Stops rest) : assignment.Fails s := by
  refine fails_iff.mpr fun trees last htakes => ?_
  obtain ⟨_, phrase, tree, hassigned, -, -, -, a, more, rfl⟩ := assignment_of_takes htakes
  obtain ⟨mid, ha, hassigned⟩ := reads_cons_iff.mp hassigned
  obtain ⟨_, hequals, -⟩ := reads_cons_iff.mp hassigned
  cases h with
  | «show» b =>
    obtain ⟨mid', hb, hreads⟩ := reads_cons_iff.mp hreads
    obtain rfl := reads_nil_iff.mp hreads
    obtain ⟨-, rfl⟩ := ha.unique hb
    exact hstops _ _ hequals
  | binary b b' hop =>
    obtain ⟨mid', hb, hreads⟩ := reads_cons_iff.mp hreads
    obtain ⟨_, hmark, -⟩ := reads_cons_iff.mp hreads
    obtain ⟨-, rfl⟩ := ha.unique hb
    obtain ⟨heq, -⟩ := hequals.unique hmark
    cases heq
    cases hop
  | scaled n b =>
    obtain ⟨_, hn, -⟩ := reads_cons_iff.mp hreads
    exact nomatch (ha.unique hn).1
  | call f hnames =>
    obtain ⟨_, hf, -⟩ := reads_cons_iff.mp hreads
    exact nomatch (ha.unique hf).1

/-- A value with a name and an equals sign before it is taken as an assignment. -/
theorem takes_assignment {a : Char} (ha : Scans (skipped s) (.name a) mid) {value : List Char}
    (hequals : Scans (skipped mid) (.mark '=') value)
    (h : (firstOf [matrixLiteral, vectorLiteral, clause]).Takes value trees rest) :
    ∃ trees, statement.Takes s trees rest := by
  have hparts : (parts [name, mark '=', firstOf [matrixLiteral, vectorLiteral, clause]]).Takes
      s _ rest :=
    takes_parts.mpr ⟨_, mid, _, parse_name_eq_some_iff.mpr ⟨a, ha, rfl⟩,
      takes_parts.mpr ⟨_, value, _, takes_mark hequals, h, rfl⟩, rfl⟩
  obtain ⟨text, htakes⟩ := exists_takes_node .assignment hparts
  exact ⟨_, takes_choice.mpr (.inr ⟨fails_list ha nofun, takes_choice.mpr (.inl htakes)⟩)⟩

/-- **The tokens of a phrase are taken as a statement**, if no token follows them. -/
theorem takes_statement (h : PhraseTokens phrase tokens) (hreads : Reads s tokens rest)
    (hstops : Stops rest) : ∃ trees, statement.Takes s trees rest := by
  cases h with
  | list =>
    obtain ⟨_, hword, hreads⟩ := reads_cons_iff.mp hreads
    obtain rfl := reads_nil_iff.mp hreads
    exact ⟨_, takes_choice.mpr (.inl (parse_list_eq_some_iff.mpr ⟨hword, rfl⟩))⟩
  | matrix a hrows =>
    obtain ⟨mid, ha, hreads⟩ := reads_cons_iff.mp hreads
    obtain ⟨value, hequals, hreads⟩ := reads_cons_iff.mp hreads
    obtain ⟨inside, hbracket, hreads⟩ := reads_cons_iff.mp hreads
    obtain ⟨trees, hlisted⟩ := hrows.listed hreads
    have hlist := (takes_listed fun _ _ => fails_of_comma (by decide)).mpr hlisted
    obtain ⟨text, hmatrix⟩ := exists_takes_node .matrixLiteral
      (takes_parts.mpr ⟨_, inside, _, takes_mark hbracket, hlist, rfl⟩)
    exact takes_assignment ha hequals (takes_choice.mpr (.inl hmatrix))
  | vector a hnumbers =>
    obtain ⟨mid, ha, hreads⟩ := reads_cons_iff.mp hreads
    obtain ⟨value, hequals, hreads⟩ := reads_cons_iff.mp hreads
    obtain ⟨inside, hparen, hreads⟩ := reads_cons_iff.mp hreads
    have hlist := readsItems_numbers.takes_list_iff.mpr ⟨_, _, hreads, hnumbers, rfl⟩
    obtain ⟨text, hvector⟩ := exists_takes_node .vectorLiteral
      (takes_parts.mpr ⟨_, inside, _, takes_mark hparen, hlist, rfl⟩)
    have hmatrix : matrixLiteral.Fails value := fails_bracketed (by decide) hparen (by decide)
    exact takes_assignment ha hequals
      (takes_choice.mpr (.inr ⟨hmatrix, takes_choice.mpr (.inl hvector)⟩))
  | bind a hwhat =>
    obtain ⟨mid, ha, hreads⟩ := reads_cons_iff.mp hreads
    obtain ⟨value, hequals, hreads⟩ := reads_cons_iff.mp hreads
    obtain ⟨trees, hclause⟩ := takes_clause hwhat hreads hstops
    obtain ⟨t, more, rfl, hmark⟩ := hwhat.exists_cons
    obtain ⟨_, ht, -⟩ := reads_cons_iff.mp hreads
    have hmatrix : matrixLiteral.Fails value := fails_bracketed (by decide) ht (hmark _)
    have hvector : vectorLiteral.Fails value := fails_bracketed (by decide) ht (hmark _)
    exact takes_assignment ha hequals
      (takes_choice.mpr (.inr ⟨hmatrix, takes_choice.mpr (.inr ⟨hvector, hclause⟩)⟩))
  | run hwhat hhead =>
    obtain ⟨trees, hclause⟩ := takes_clause hwhat hreads hstops
    have hassignment := fails_assignment hwhat hreads hstops
    obtain ⟨t, more, rfl, -⟩ := hwhat.exists_cons
    obtain ⟨_, ht, -⟩ := reads_cons_iff.mp hreads
    have hlist : list.Fails s := fails_list ht fun heq => hhead (congrArg some heq)
    exact ⟨trees, takes_choice.mpr (.inr ⟨hlist, takes_choice.mpr (.inr ⟨hassignment, hclause⟩)⟩)⟩

end ExactLinear.Command
