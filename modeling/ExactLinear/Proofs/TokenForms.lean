import ExactLinear.Command.Program
import ExactLinear.Proofs.Computation
import ExactLinear.Proofs.Literals

/-!
# What stands in a phrase

The scanner and the reader of literals describe numbers apart from each other: `scan?` takes
characters as long as they can belong to a number, `Literal.read` splits a text at its slash and
checks what it has found. They agree: a number token always has the `Literal.Form`, which is never
malformed (`wellFormed_of_lex`). The grammar only moves the texts and the letters of tokens
into phrases and never makes an empty row, so the same holds of every phrase of a text
(`wellFormed_of_phrases?`).
-/

namespace ExactLinear.Command

open Literal (Form isDigits)

variable {c : Char} {s rest : List Char} {t : Token} {tokens : List Token}

/-- The text has the form of a rational literal. -/
def IsNumber (text : String) : Prop := ∃ negative numer denom?, Form negative numer denom? text

/-! ## Tokens -/

/-- A name token holds a letter and a number token a literal. -/
def Token.WellFormed : Token → Prop
  | .name letter => letter.isAlpha = true
  | .number text => IsNumber text
  | .word _ => True
  | .mark _ => True

/-- The denominator is missing, or it has a digit. -/
theorem scanDenominator_form (s : List Char) :
    ∃ denom? : Option (List Char), (scanDenominator s).1 = denom?.elim [] ('/' :: ·) ∧
      ∀ denom ∈ denom?, isDigits denom = true := by
  unfold scanDenominator
  split
  · rename_i c s
    split_ifs with hc
    · refine ⟨some (c :: s.takeWhile Char.isDigit), rfl, fun denom hdenom => ?_⟩
      rw [← Option.some.inj hdenom, Literal.isDigits_iff]
      refine ⟨List.cons_ne_nil _ _, List.forall_mem_cons.mpr ⟨hc, ?_⟩⟩
      exact List.all_eq_true.mp List.all_takeWhile
    · exact ⟨none, rfl, nofun⟩
  · exact ⟨none, rfl, nofun⟩

/-- A number that starts with a digit, after a minus sign or not, has the form of a literal. -/
theorem wellFormed_scanNumber (negative : Bool) (hc : c.isDigit = true) (s : List Char) :
    (scanNumber (minus negative ++ [c]) s).1.WellFormed := by
  obtain ⟨denom?, hdenom, hdigits⟩ := scanDenominator_form (s.dropWhile Char.isDigit)
  refine ⟨negative, c :: s.takeWhile Char.isDigit, denom?, ?_, ?_, hdigits⟩
  · rw [String.toList_ofList, ← hdenom, List.append_assoc, List.append_assoc]
    rfl
  · rw [Literal.isDigits_iff]
    refine ⟨List.cons_ne_nil _ _, List.forall_mem_cons.mpr ⟨hc, ?_⟩⟩
    exact List.all_eq_true.mp List.all_takeWhile

theorem wellFormed_of_scanWord (hc : c.isAlpha = true) (h : scanWord c s = some (t, rest)) :
    t.WellFormed := by
  simp only [scanWord] at h
  split_ifs at h
  · cases h
    exact hc
  · cases h
    trivial

theorem wellFormed_of_scanMark (h : scanMark c s = some (t, rest)) : t.WellFormed := by
  unfold scanMark at h
  split_ifs at h
  cases h
  trivial

theorem wellFormed_of_scan? (h : scan? c s = some (t, rest)) : t.WellFormed := by
  unfold scan? at h
  split_ifs at h with halpha hdigit
  · exact wellFormed_of_scanWord halpha h
  · cases h
    exact wellFormed_scanNumber false hdigit s
  · split at h
    · exact wellFormed_of_scanMark h
    · rename_i d s
      split_ifs at h with hminus
      · obtain ⟨rfl, hd⟩ := hminus
        cases h
        exact wellFormed_scanNumber true hd s
      · exact wellFormed_of_scanMark h

/-- Every token of a piece is well-formed. -/
theorem wellFormed_of_lex (h : lex s = some tokens) : ∀ t ∈ tokens, t.WellFormed := by
  fun_induction lex s generalizing tokens with
  | case1 => cases h; nofun
  | case2 c s hspace ih => exact ih h
  | case3 c s hspace hscan => cases h
  | case4 c s hspace t rest hscan ih =>
    obtain ⟨tokens, htokens, rfl⟩ := Option.map_eq_some_iff.mp h
    exact List.forall_mem_cons.mpr ⟨wellFormed_of_scan? hscan, ih htokens⟩

/-! ## Phrases -/

/-- There is a number, and the numbers have the form of literals. -/
def AreNumbers (numbers : List String) : Prop := numbers ≠ [] ∧ ∀ n ∈ numbers, IsNumber n

/-- There is a row, and the rows are numbers. -/
def AreRows (rows : List WrittenRow) : Prop := rows ≠ [] ∧ ∀ row ∈ rows, AreNumbers row.numbers

/-- The names are letters, and the factor has the form of a literal. -/
def Clause.WellFormed : Clause → Prop
  | .binary _ left right => left.isAlpha = true ∧ right.isAlpha = true
  | .scaled factor name => IsNumber factor ∧ name.isAlpha = true
  | .call _ args => ∀ name ∈ args, name.isAlpha = true
  | .show name => name.isAlpha = true

/-- The names are letters, the numbers have the form of literals, and no matrix, row or vector is
empty. -/
def Phrase.WellFormed : Phrase → Prop
  | .list => True
  | .matrix name rows => name.isAlpha = true ∧ AreRows rows
  | .vector name numbers => name.isAlpha = true ∧ AreNumbers numbers
  | .bind name clause => name.isAlpha = true ∧ clause.WellFormed
  | .run clause => clause.WellFormed

theorem areNumbers_singleton {n : String} (hn : IsNumber n) : AreNumbers [n] :=
  ⟨List.cons_ne_nil _ _, List.forall_mem_singleton.mpr hn⟩

theorem AreNumbers.cons {n : String} {numbers : List String} (hn : IsNumber n)
    (h : AreNumbers numbers) : AreNumbers (n :: numbers) :=
  ⟨List.cons_ne_nil _ _, List.forall_mem_cons.mpr ⟨hn, h.2⟩⟩

theorem areRows_singleton {row : WrittenRow} (hrow : AreNumbers row.numbers) : AreRows [row] :=
  ⟨List.cons_ne_nil _ _, List.forall_mem_singleton.mpr hrow⟩

theorem AreRows.cons {row : WrittenRow} {rows : List WrittenRow} (hrow : AreNumbers row.numbers)
    (h : AreRows rows) : AreRows (row :: rows) :=
  ⟨List.cons_ne_nil _ _, List.forall_mem_cons.mpr ⟨hrow, h.2⟩⟩

theorem AreRows.consNumber {n : String} {rows : List WrittenRow} (hn : IsNumber n)
    (h : AreRows rows) : AreRows (consNumber n rows) := by
  obtain ⟨hne, hall⟩ := h
  obtain ⟨row, rows, rfl⟩ := List.exists_cons_of_ne_nil hne
  obtain ⟨hrow, hrows⟩ := List.forall_mem_cons.mp hall
  exact ⟨List.cons_ne_nil _ _, List.forall_mem_cons.mpr ⟨.cons hn hrow, hrows⟩⟩

theorem isAlpha_of_names? {names : List Char} (htokens : ∀ t ∈ tokens, t.WellFormed)
    (h : names? tokens = some names) : ∀ name ∈ names, name.isAlpha = true := by
  fun_induction names? tokens generalizing names with
  | case1 a =>
    cases h
    exact List.forall_mem_singleton.mpr (htokens (.name a) List.mem_cons_self)
  | case2 a tokens ih =>
    obtain ⟨names, hnames, rfl⟩ := Option.map_eq_some_iff.mp h
    simp only [List.forall_mem_cons] at htokens
    exact List.forall_mem_cons.mpr ⟨htokens.1, ih htokens.2.2 hnames⟩
  | case3 => cases h

theorem areNumbers_of_numbers? {numbers : List String} (htokens : ∀ t ∈ tokens, t.WellFormed)
    (h : numbers? tokens = some numbers) : AreNumbers numbers := by
  fun_induction numbers? tokens generalizing numbers with
  | case1 n =>
    cases h
    exact areNumbers_singleton (htokens (.number n) List.mem_cons_self)
  | case2 n tokens ih =>
    obtain ⟨numbers, hnumbers, rfl⟩ := Option.map_eq_some_iff.mp h
    simp only [List.forall_mem_cons] at htokens
    exact .cons htokens.1 (ih htokens.2.2 hnumbers)
  | case3 => cases h

theorem areRows_of_rows? {rows : List WrittenRow} (htokens : ∀ t ∈ tokens, t.WellFormed)
    (h : rows? tokens = some rows) : AreRows rows := by
  fun_induction rows? tokens generalizing rows with
  | case1 n tokens ih =>
    obtain ⟨rows, hrows, rfl⟩ := Option.map_eq_some_iff.mp h
    simp only [List.forall_mem_cons] at htokens
    exact .consNumber htokens.1 (ih htokens.2.2 hrows)
  | case2 n =>
    cases h
    simp only [List.forall_mem_cons] at htokens
    exact areRows_singleton (areNumbers_singleton htokens.1)
  | case3 n tokens ih =>
    obtain ⟨rows, hrows, rfl⟩ := Option.map_eq_some_iff.mp h
    simp only [List.forall_mem_cons] at htokens
    exact .cons (areNumbers_singleton htokens.1) (ih htokens.2.2.2.2 hrows)
  | case4 n b =>
    cases h
    simp only [List.forall_mem_cons] at htokens
    exact areRows_singleton (.cons htokens.1 (areNumbers_singleton htokens.2.2.1))
  | case5 n b tokens ih =>
    obtain ⟨rows, hrows, rfl⟩ := Option.map_eq_some_iff.mp h
    simp only [List.forall_mem_cons] at htokens
    exact .cons (.cons htokens.1 (areNumbers_singleton htokens.2.2.1))
      (ih htokens.2.2.2.2.2.2 hrows)
  | case6 => cases h

theorem wellFormed_of_clause {clause : Clause} (htokens : ∀ t ∈ tokens, t.WellFormed)
    (h : Clause.ofTokens? tokens = some clause) : clause.WellFormed := by
  unfold Clause.ofTokens? at h
  split at h
  · cases h
    exact htokens (.name _) List.mem_cons_self
  · obtain ⟨op, -, rfl⟩ := Option.map_eq_some_iff.mp h
    simp only [List.forall_mem_cons] at htokens
    exact ⟨htokens.1, htokens.2.2.1⟩
  · cases h
    simp only [List.forall_mem_cons] at htokens
    exact ⟨htokens.1, htokens.2.2.1⟩
  · obtain ⟨names, hnames, rfl⟩ := Option.map_eq_some_iff.mp h
    simp only [List.forall_mem_cons] at htokens
    exact isAlpha_of_names? htokens.2.2 hnames
  · cases h

theorem wellFormed_of_phrase {phrase : Phrase} (htokens : ∀ t ∈ tokens, t.WellFormed)
    (h : Phrase.ofTokens? tokens = some phrase) : phrase.WellFormed := by
  unfold Phrase.ofTokens? at h
  split_ifs at h
  · cases h
    trivial
  · split at h
    · obtain ⟨rows, hrows, rfl⟩ := Option.map_eq_some_iff.mp h
      simp only [List.forall_mem_cons] at htokens
      exact ⟨htokens.1, areRows_of_rows? htokens.2.2.2.2 hrows⟩
    · obtain ⟨numbers, hnumbers, rfl⟩ := Option.map_eq_some_iff.mp h
      simp only [List.forall_mem_cons] at htokens
      exact ⟨htokens.1, areNumbers_of_numbers? htokens.2.2.2 hnumbers⟩
    · obtain ⟨clause, hclause, rfl⟩ := Option.map_eq_some_iff.mp h
      simp only [List.forall_mem_cons] at htokens
      exact ⟨htokens.1, wellFormed_of_clause htokens.2.2 hclause⟩
    · obtain ⟨clause, hclause, rfl⟩ := Option.map_eq_some_iff.mp h
      exact wellFormed_of_clause htokens hclause

theorem wellFormed_of_piecePhrases? {phrases : List Phrase} (h : piecePhrases? s = some phrases) :
    ∀ phrase ∈ phrases, phrase.WellFormed := by
  unfold piecePhrases? at h
  split at h
  · cases h
  · cases h
    nofun
  · rename_i tokens _ hlex
    obtain ⟨phrase, hphrase, rfl⟩ := Option.map_eq_some_iff.mp h
    exact List.forall_mem_singleton.mpr (wellFormed_of_phrase (wellFormed_of_lex hlex) hphrase)

/-- Every phrase of a text is well-formed. -/
theorem wellFormed_of_phrases? {text : String} {phrases : List Phrase}
    (h : phrases? text = some phrases) : ∀ phrase ∈ phrases, phrase.WellFormed := by
  obtain ⟨found, hfound, rfl⟩ := Option.map_eq_some_iff.mp h
  intro phrase hphrase
  obtain ⟨ofPiece, hmem, hphrase⟩ := List.mem_flatten.mp hphrase
  have hall : ∀ phrases ∈ found, ∀ phrase ∈ phrases, phrase.WellFormed :=
    forall_mem_of_mapM_eq_some (fun _ _ => wellFormed_of_piecePhrases?) hfound
  exact hall ofPiece hmem phrase hphrase

end ExactLinear.Command
