import ExactLinear.Proofs.GrammarTokens
import ExactLinear.Proofs.StatementTokens

/-!
# Lists of the grammar

The rules for names and numbers in parentheses and for matrices take the tokens that `names?`,
`numbers?` and `rows?` read. `Reads` says that tokens stand one behind another. The rows of a matrix
are read number by number, and taken row by row; `RowsTokens` gives their tokens as they are
written, and is what both agree on (`rows?_eq_some_iff`, `rows_of_listed`, `RowsTokens.listed`).
-/

namespace ExactLinear.Command

open Peg Grammar

variable {c d : Char} {s mid rest : List Char} {t : Token} {tokens : List Token}
  {trees : List Tree}

/-! ## Tokens one behind another -/

/-- The tokens stand one behind another, with blanks and comments before each. -/
inductive Reads : List Char → List Token → List Char → Prop where
  | nil (s : List Char) : Reads s [] s
  | cons {s mid rest : List Char} {t : Token} {tokens : List Token} (h : Scans (skipped s) t mid)
      (hrest : Reads mid tokens rest) : Reads s (t :: tokens) rest

theorem reads_nil_iff : Reads s [] rest ↔ rest = s := by
  constructor
  · rintro ⟨⟩
    rfl
  · rintro rfl
    exact .nil rest

theorem reads_cons_iff :
    Reads s (t :: tokens) rest ↔ ∃ mid, Scans (skipped s) t mid ∧ Reads mid tokens rest := by
  constructor
  · rintro ⟨⟩
    exact ⟨_, ‹_›, ‹_›⟩
  · rintro ⟨mid, h, hrest⟩
    exact .cons h hrest

theorem reads_append_iff {front back : List Token} :
    Reads s (front ++ back) rest ↔ ∃ mid, Reads s front mid ∧ Reads mid back rest := by
  induction front generalizing s with
  | nil => simp [reads_nil_iff]
  | cons t front ih =>
    simp only [List.cons_append, reads_cons_iff, ih]
    grind

/-- One text starts with one mark. -/
theorem eq_of_takes_mark {more : List Tree} {rest' : List Char} (h : (mark c).Takes s trees rest)
    (h' : (mark d).Takes s more rest') : c = d := by
  have heq := (parse_text_eq_some_iff.mp h).1.symm.trans (parse_text_eq_some_iff.mp h').1
  exact (List.cons.inj heq).1

theorem scans_of_takes_mark (h : (mark c).Takes s trees rest)
    (hc : c ∈ marks ∧ c ≠ '-' := by decide) : Scans (skipped s) (.mark c) rest ∧ trees = [] :=
  (parse_mark_eq_some_iff hc.1 hc.2).mp h

theorem takes_mark (h : Scans (skipped s) (.mark c) rest)
    (hc : c ∈ marks ∧ c ≠ '-' := by decide) : (mark c).Takes s [] rest :=
  (parse_mark_eq_some_iff hc.1 hc.2).mpr ⟨h, rfl⟩

/-! ## Lists in parentheses -/

/-- A function that reads a list of tokens up to a closing parenthesis, and the rule for its
items. -/
structure ReadsItems {α : Type} (item : Peg) (token : α → Token) (tree : α → Tree)
    (items? : List Token → Option (List α)) : Prop where
  takes_iff : ∀ {s trees rest}, item.Takes s trees rest ↔
    ∃ a, Scans (skipped s) (token a) rest ∧ trees = [tree a]
  eq_some_iff : ∀ {tokens items}, items? tokens = some items ↔
    (∃ a, tokens = [token a, .mark ')'] ∧ items = [a]) ∨
      ∃ a more others, tokens = token a :: .mark ',' :: more ∧ items? more = some others ∧
        items = a :: others

theorem readsItems_names : ReadsItems name .name nameTree names? where
  takes_iff := parse_name_eq_some_iff
  eq_some_iff {tokens names} := by
    constructor
    · intro h
      unfold names? at h
      split at h
      · cases h
        exact .inl ⟨_, rfl, rfl⟩
      · obtain ⟨others, hothers, rfl⟩ := Option.map_eq_some_iff.mp h
        exact .inr ⟨_, _, others, rfl, hothers, rfl⟩
      · cases h
    · rintro (⟨a, rfl, rfl⟩ | ⟨a, more, others, rfl, hothers, rfl⟩)
      · rfl
      · rw [names?, hothers]
        rfl

theorem readsItems_numbers : ReadsItems number .number numberTree numbers? where
  takes_iff := parse_number_eq_some_iff
  eq_some_iff {tokens numbers} := by
    constructor
    · intro h
      unfold numbers? at h
      split at h
      · cases h
        exact .inl ⟨_, rfl, rfl⟩
      · obtain ⟨others, hothers, rfl⟩ := Option.map_eq_some_iff.mp h
        exact .inr ⟨_, _, others, rfl, hothers, rfl⟩
      · cases h
    · rintro (⟨a, rfl, rfl⟩ | ⟨a, more, others, rfl, hothers, rfl⟩)
      · rfl
      · rw [numbers?, hothers]
        rfl

theorem fails_of_comma (hne : ',' ≠ c) (h : (mark ',').Takes s [] rest) :
    (parts [mark c]).Fails s :=
  fails_iff.mpr fun _ _ htakes => hne (eq_of_takes_mark h htakes)

/-- The grammar takes a list in parentheses as the tokens are read. -/
theorem ReadsItems.takes_list_iff {α : Type} {item : Peg} {token : α → Token} {tree : α → Tree}
    {items? : List Token → Option (List α)} (h : ReadsItems item token tree items?) :
    (parts [item, many (parts [mark ',', item]), mark ')']).Takes s trees rest ↔
      ∃ tokens items, Reads s tokens rest ∧ items? tokens = some items ∧
        trees = items.map tree := by
  rw [takes_listed fun _ _ => fails_of_comma (by decide)]
  constructor
  · intro hlisted
    induction hlisted with
    | last hitem hclose =>
      obtain ⟨a, ha, rfl⟩ := h.takes_iff.mp hitem
      obtain ⟨hmark, rfl⟩ := scans_of_takes_mark hclose
      exact ⟨[token a, .mark ')'], [a], .cons ha (.cons hmark (.nil _)),
        h.eq_some_iff.mpr (.inl ⟨a, rfl, rfl⟩), rfl⟩
    | next hitem hcomma _ ih =>
      obtain ⟨a, ha, rfl⟩ := h.takes_iff.mp hitem
      obtain ⟨hmark, -⟩ := scans_of_takes_mark hcomma
      obtain ⟨tokens, items, hreads, hitems, rfl⟩ := ih
      exact ⟨_, a :: items, .cons ha (.cons hmark hreads),
        h.eq_some_iff.mpr (.inr ⟨a, tokens, items, rfl, hitems, rfl⟩), rfl⟩
  · rintro ⟨tokens, items, hreads, hitems, rfl⟩
    induction items generalizing s tokens with
    | nil =>
      obtain ⟨_, _, ⟨⟩⟩ | ⟨_, _, _, _, _, ⟨⟩⟩ := h.eq_some_iff.mp hitems
    | cons a items ih =>
      obtain ⟨_, rfl, ⟨⟩⟩ | ⟨_, more, others, rfl, hothers, ⟨⟩⟩ := h.eq_some_iff.mp hitems
      · obtain ⟨_, ha, hreads⟩ := reads_cons_iff.mp hreads
        obtain ⟨_, hclose, hreads⟩ := reads_cons_iff.mp hreads
        obtain rfl := reads_nil_iff.mp hreads
        exact .last (h.takes_iff.mpr ⟨a, ha, rfl⟩)
          (takes_mark hclose)
      · obtain ⟨_, ha, hreads⟩ := reads_cons_iff.mp hreads
        obtain ⟨_, hcomma, hreads⟩ := reads_cons_iff.mp hreads
        exact .next (h.takes_iff.mpr ⟨a, ha, rfl⟩)
          (takes_mark hcomma) (ih _ hreads hothers)

/-! ## Matrices -/

/-- The tokens of a row without its brackets. -/
inductive RowTokens : WrittenRow → List Token → Prop where
  | plain (n : String) : RowTokens ⟨[n], false⟩ [.number n]
  | barred (n b : String) : RowTokens ⟨[n, b], true⟩ [.number n, .mark '|', .number b]
  | cons {row : WrittenRow} {tokens : List Token} (n : String) (h : RowTokens row tokens) :
    RowTokens { row with numbers := n :: row.numbers } (.number n :: .mark ',' :: tokens)

/-- The tokens of rows, from the first number on. -/
inductive RowsTokens : List WrittenRow → List Token → Prop where
  | last {row : WrittenRow} {tokens : List Token} (h : RowTokens row tokens) :
    RowsTokens [row] (tokens ++ [.mark ']', .mark ']'])
  | next {row : WrittenRow} {rows : List WrittenRow} {front back : List Token}
      (h : RowTokens row front) (hrest : RowsTokens rows back) :
    RowsTokens (row :: rows) (front ++ .mark ']' :: .mark ',' :: .mark '[' :: back)

variable {row : WrittenRow} {rows : List WrittenRow}

theorem RowTokens.rows?_append {tail : List Token} {below : Option (List WrittenRow)}
    (h : RowTokens row tokens) (htail : RowEnd tail below) :
    rows? (tokens ++ tail) = below.map (row :: ·) := by
  induction h with
  | plain n => exact htail.plain n
  | barred n b => exact htail.barred n b
  | cons n _ ih =>
    show (rows? (_ ++ tail)).map (consNumber n) = _
    rw [ih]
    cases below <;> rfl

theorem RowsTokens.cons (n : String) (h : RowsTokens rows tokens) :
    RowsTokens (consNumber n rows) (.number n :: .mark ',' :: tokens) := by
  cases h with
  | last h => exact .last (.cons n h)
  | next h hrest => exact .next (.cons n h) hrest

/-- The rows that are read are the rows whose tokens stand there. -/
theorem rows?_eq_some_iff : rows? tokens = some rows ↔ RowsTokens rows tokens := by
  constructor
  · intro h
    fun_induction rows? tokens generalizing rows with
    | case1 n tokens ih =>
      obtain ⟨others, hothers, rfl⟩ := Option.map_eq_some_iff.mp h
      exact (ih hothers).cons n
    | case2 n =>
      cases h
      exact .last (.plain n)
    | case3 n tokens ih =>
      obtain ⟨others, hothers, rfl⟩ := Option.map_eq_some_iff.mp h
      exact .next (.plain n) (ih hothers)
    | case4 n b =>
      cases h
      exact .last (.barred n b)
    | case5 n b tokens ih =>
      obtain ⟨others, hothers, rfl⟩ := Option.map_eq_some_iff.mp h
      exact .next (.barred n b) (ih hothers)
    | case6 => cases h
  · intro h
    induction h with
    | last h => exact h.rows?_append rowEnd_last
    | next h _ ih =>
      rw [h.rows?_append (rowEnd_next _), ih]
      rfl

/-- What may end a row: a bar with the last number, and the closing bracket. -/
def rowEnd : List Peg := [opt (parts [bar, number]), mark ']']

theorem takes_bar_iff : bar.Takes s trees rest ↔
    Scans (skipped s) (.mark '|') rest ∧ trees = [.leaf .bar "|"] := by
  have hparse : ∀ trees rest, (mark '|').parse (skipped s) = some (trees, rest) ↔
      ∃ t, skipped s = t ++ rest ∧ t = ['|'] ∧ trees = [] := by
    intro trees rest
    rw [mark, parse_text_eq_some_iff]
    grind
  refine (parse_leaf_eq_some_iff hparse).trans ?_
  constructor
  · rintro ⟨_, hs, rfl, rfl⟩
    exact ⟨(scans_of_takes_mark (parse_text_eq_some_iff.mpr ⟨hs, rfl⟩)).1, rfl⟩
  · rintro ⟨h, rfl⟩
    have hmark := takes_mark h
    exact ⟨['|'], (parse_text_eq_some_iff.mp hmark).1, rfl, rfl⟩

theorem takes_rowEnd_iff : (parts rowEnd).Takes s trees rest ↔
    (Reads s [.mark ']'] rest ∧ trees = []) ∨
      ∃ b, Reads s [.mark '|', .number b, .mark ']'] rest ∧
        trees = [.leaf .bar "|", numberTree b] := by
  constructor
  · intro h
    obtain ⟨front, mid, back, hopt, hclose, rfl⟩ := takes_parts.mp h
    obtain ⟨hbracket, rfl⟩ := scans_of_takes_mark hclose
    obtain hbarred | ⟨-, rfl, rfl⟩ := takes_opt.mp hopt
    · obtain ⟨_, _, _, hbar, hnumber, rfl⟩ := takes_parts.mp hbarred
      obtain ⟨hmark, rfl⟩ := takes_bar_iff.mp hbar
      obtain ⟨b, hb, rfl⟩ := parse_number_eq_some_iff.mp hnumber
      exact .inr ⟨b, .cons hmark (.cons hb (.cons hbracket (.nil _))), rfl⟩
    · rw [skipped_skipped] at hbracket
      exact .inl ⟨.cons hbracket (.nil _), rfl⟩
  · rintro (⟨h, rfl⟩ | ⟨b, h, rfl⟩)
    · obtain ⟨_, hbracket, h⟩ := reads_cons_iff.mp h
      obtain rfl := reads_nil_iff.mp h
      have hfails : (parts [bar, number]).Fails s := Fails.parts (fails_iff.mpr
        fun _ _ hbar => nomatch (hbracket.unique (takes_bar_iff.mp hbar).1).1) _
      refine takes_parts.mpr ⟨[], skipped s, [], takes_opt.mpr (.inr ⟨hfails, rfl, rfl⟩), ?_, rfl⟩
      exact takes_skipped_iff.mpr (takes_mark hbracket)
    · obtain ⟨mid, hmark, h⟩ := reads_cons_iff.mp h
      obtain ⟨last, hb, h⟩ := reads_cons_iff.mp h
      obtain ⟨_, hbracket, h⟩ := reads_cons_iff.mp h
      obtain rfl := reads_nil_iff.mp h
      have hbarred : (parts [bar, number]).Takes s ([.leaf .bar "|"] ++ [numberTree b]) last :=
        takes_parts.mpr ⟨_, mid, _, takes_bar_iff.mpr ⟨hmark, rfl⟩,
          parse_number_eq_some_iff.mpr ⟨b, hb, rfl⟩, rfl⟩
      exact takes_parts.mpr ⟨_, last, [], takes_opt.mpr (.inl hbarred),
        takes_mark hbracket, rfl⟩

theorem fails_rowEnd_of_comma (h : (mark ',').Takes s [] rest) : (parts rowEnd).Fails s := by
  have hcomma := (scans_of_takes_mark h).1
  refine fails_iff.mpr fun trees last htakes => ?_
  obtain ⟨hreads, -⟩ | ⟨b, hreads, -⟩ := takes_rowEnd_iff.mp htakes
  · obtain ⟨_, hbracket, -⟩ := reads_cons_iff.mp hreads
    exact nomatch (hcomma.unique hbracket).1
  · obtain ⟨_, hbar, -⟩ := reads_cons_iff.mp hreads
    exact nomatch (hcomma.unique hbar).1

/-- The inside of a row is taken as the tokens of a row. -/
theorem row_of_listed (h : Listed number (parts rowEnd) s trees rest) :
    ∃ row tokens, RowTokens row tokens ∧ Reads s (tokens ++ [.mark ']']) rest ∧
      ∀ text, row.IsTree ⟨.matrixRow, text, trees⟩ := by
  induction h with
  | last hitem hclose =>
    obtain ⟨n, hn, rfl⟩ := parse_number_eq_some_iff.mp hitem
    obtain ⟨hreads, rfl⟩ | ⟨b, hreads, rfl⟩ := takes_rowEnd_iff.mp hclose
    · exact ⟨_, _, .plain n, .cons hn hreads, fun text => .plain [n] text⟩
    · exact ⟨_, _, .barred n b, .cons hn hreads, fun text => .barred [n] b text⟩
  | next hitem hcomma _ ih =>
    obtain ⟨n, hn, rfl⟩ := parse_number_eq_some_iff.mp hitem
    obtain ⟨hmark, -⟩ := scans_of_takes_mark hcomma
    obtain ⟨row, tokens, hrow, hreads, htree⟩ := ih
    refine ⟨_, _, .cons n hrow, .cons hn (.cons hmark hreads), fun text => ?_⟩
    cases htree text with
    | plain numbers => exact .plain (n :: numbers) text
    | barred numbers last => exact .barred (n :: numbers) last text

theorem RowTokens.listed (h : RowTokens row tokens)
    (hreads : Reads s (tokens ++ [.mark ']']) rest) :
    ∃ trees, Listed number (parts rowEnd) s trees rest := by
  induction h generalizing s with
  | plain n =>
    obtain ⟨mid, hn, hreads⟩ := reads_cons_iff.mp hreads
    exact ⟨_, .last (parse_number_eq_some_iff.mpr ⟨n, hn, rfl⟩)
      (takes_rowEnd_iff.mpr (.inl ⟨hreads, rfl⟩))⟩
  | barred n b =>
    obtain ⟨mid, hn, hreads⟩ := reads_cons_iff.mp hreads
    exact ⟨_, .last (parse_number_eq_some_iff.mpr ⟨n, hn, rfl⟩)
      (takes_rowEnd_iff.mpr (.inr ⟨b, hreads, rfl⟩))⟩
  | cons n _ ih =>
    obtain ⟨mid, hn, hreads⟩ := reads_cons_iff.mp hreads
    obtain ⟨next, hcomma, hreads⟩ := reads_cons_iff.mp hreads
    obtain ⟨trees, hlisted⟩ := ih hreads
    exact ⟨_, .next (parse_number_eq_some_iff.mpr ⟨n, hn, rfl⟩)
      (takes_mark hcomma) hlisted⟩

/-- A row is taken as its tokens in brackets. -/
theorem row_of_takes (h : matrixRow.Takes s trees rest) :
    ∃ row tokens tree, RowTokens row tokens ∧ Reads s (.mark '[' :: (tokens ++ [.mark ']'])) rest ∧
      row.IsTree tree ∧ trees = [tree] := by
  obtain ⟨children, text, hparts, rfl⟩ := takes_node h
  obtain ⟨_, mid, back, hopen, hinside, rfl⟩ := takes_parts.mp hparts
  obtain ⟨hbracket, rfl⟩ := scans_of_takes_mark hopen
  obtain ⟨row, tokens, hrow, hreads, htree⟩ :=
    row_of_listed ((takes_listed fun _ _ => fails_rowEnd_of_comma).mp hinside)
  exact ⟨row, tokens, _, hrow, .cons hbracket hreads, htree text, rfl⟩

theorem RowTokens.takes (h : RowTokens row tokens)
    (hreads : Reads s (.mark '[' :: (tokens ++ [.mark ']'])) rest) :
    ∃ trees, matrixRow.Takes s trees rest := by
  obtain ⟨mid, hopen, hreads⟩ := reads_cons_iff.mp hreads
  obtain ⟨trees, hlisted⟩ := h.listed hreads
  have hinside := (takes_listed fun _ _ => fails_rowEnd_of_comma).mpr hlisted
  obtain ⟨text, htakes⟩ := exists_takes_node .matrixRow (takes_parts.mpr
    ⟨[], mid, trees, takes_mark hopen, hinside, rfl⟩)
  exact ⟨_, htakes⟩

/-- A list of rows is taken as the tokens of rows behind a bracket. -/
theorem rows_of_listed (h : Listed matrixRow (parts [mark ']']) s trees rest) :
    ∃ rows tokens, RowsTokens rows tokens ∧ Reads s (.mark '[' :: tokens) rest ∧
      List.Forall₂ WrittenRow.IsTree rows trees := by
  induction h with
  | last hitem hclose =>
    obtain ⟨row, tokens, tree, hrow, hreads, htree, rfl⟩ := row_of_takes hitem
    obtain ⟨hbracket, rfl⟩ := scans_of_takes_mark hclose
    refine ⟨[row], _, .last hrow, ?_, .cons htree .nil⟩
    have hall := reads_append_iff.mpr ⟨_, hreads, .cons hbracket (.nil _)⟩
    simpa using hall
  | next hitem hcomma _ ih =>
    obtain ⟨row, tokens, tree, hrow, hreads, htree, rfl⟩ := row_of_takes hitem
    obtain ⟨hmark, -⟩ := scans_of_takes_mark hcomma
    obtain ⟨rows, back, hrows, hback, htrees⟩ := ih
    refine ⟨row :: rows, _, .next hrow hrows, ?_, .cons htree htrees⟩
    have hall := reads_append_iff.mpr ⟨_, hreads, .cons hmark hback⟩
    simpa using hall

theorem RowsTokens.listed (h : RowsTokens rows tokens)
    (hreads : Reads s (.mark '[' :: tokens) rest) :
    ∃ trees, Listed matrixRow (parts [mark ']']) s trees rest := by
  induction h generalizing s with
  | @last row tokens hrow =>
    have hsplit : Token.mark '[' :: (tokens ++ [.mark ']', .mark ']']) =
        (.mark '[' :: (tokens ++ [.mark ']'])) ++ [.mark ']'] := by simp
    rw [hsplit] at hreads
    obtain ⟨mid, hfront, hback⟩ := reads_append_iff.mp hreads
    obtain ⟨_, hbracket, hback⟩ := reads_cons_iff.mp hback
    obtain rfl := reads_nil_iff.mp hback
    obtain ⟨trees, htakes⟩ := hrow.takes hfront
    exact ⟨_, .last htakes (takes_mark hbracket)⟩
  | @next row rows front back hrow _ ih =>
    have hsplit : Token.mark '[' :: (front ++ .mark ']' :: .mark ',' :: .mark '[' :: back) =
        (.mark '[' :: (front ++ [.mark ']'])) ++ .mark ',' :: .mark '[' :: back := by simp
    rw [hsplit] at hreads
    obtain ⟨mid, hfront, hback⟩ := reads_append_iff.mp hreads
    obtain ⟨next, hcomma, hback⟩ := reads_cons_iff.mp hback
    obtain ⟨trees, htakes⟩ := hrow.takes hfront
    obtain ⟨more, hlisted⟩ := ih hback
    exact ⟨_, .next htakes (takes_mark hcomma) hlisted⟩

end ExactLinear.Command
