import ExactLinear.Proofs.GrammarPieces

/-!
# Programs of the grammar

A program by the rules of the grammar is made of statements and separators. A statement that is
taken ends where no token of it can go on, and that is at a break: a separator, a comment or the end
of the text. So what is taken for a program has the phrases that the pieces of the text have
(`phrases_of_parse_program`), by induction on how often the rule for the next statement matches. In
the other direction a text that has phrases is taken up to its end (`exists_parse_program`), by
induction on its length, since every statement is taken at once and never given back. Together the
rules and the pieces give the same statements, or the same error (`readByGrammar_eq`).
-/

namespace ExactLinear.Command

open Peg Grammar

variable {c : Char} {s mid rest : List Char} {tokens : List Token} {trees : List Tree}

/-! ## Separators -/

theorem consumes_newline : newline.Consumes :=
  (consumes_text (List.cons_ne_nil _ _)).choice
    ((consumes_text (List.cons_ne_nil _ _)).choice (consumes_text (List.cons_ne_nil _ _)))

theorem consumes_separator : separator.Consumes := (consumes_mark ';').choice consumes_newline

/-- What is taken as a separator is a semicolon, a line break or two. -/
theorem separator_of_takes (h : separator.Takes s trees rest) : trees = [] ∧
    ((∃ c, (c = ';' ∨ isLineBreak c = true) ∧ skipped s = c :: rest) ∨
      skipped s = '\r' :: '\n' :: rest) := by
  obtain h | ⟨-, h⟩ := takes_choice.mp h
  · obtain ⟨hs, htrees⟩ := parse_text_eq_some_iff.mp h
    exact ⟨htrees, .inl ⟨';', .inl rfl, hs⟩⟩
  obtain h | ⟨-, h⟩ := takes_choice.mp h
  · obtain ⟨hs, htrees⟩ := parse_text_eq_some_iff.mp h
    exact ⟨htrees, .inl ⟨'\n', .inr rfl, hs⟩⟩
  obtain h | ⟨-, h⟩ := takes_choice.mp h
  · obtain ⟨hs, htrees⟩ := parse_text_eq_some_iff.mp h
    exact ⟨htrees, .inr hs⟩
  · obtain ⟨hs, htrees⟩ := parse_text_eq_some_iff.mp h
    exact ⟨htrees, .inl ⟨'\r', .inr rfl, hs⟩⟩

theorem phrasesOf?_of_takes_separator (h : separator.Takes s trees rest) :
    phrasesOf? s = phrasesOf? rest := by
  rw [← phrasesOf?_skipped s]
  obtain ⟨-, ⟨c, hc, hs⟩ | hs⟩ := separator_of_takes h
  · rw [hs, phrasesOf?_separator hc]
  · rw [hs, phrasesOf?_separator (.inr rfl), phrasesOf?_separator (.inr rfl)]

theorem atBreak_of_takes_separator (h : separator.Takes s trees rest) : AtBreak s := by
  intro d hd
  obtain ⟨-, ⟨c, hc, hs⟩ | hs⟩ := separator_of_takes h
  · rw [hs] at hd
    cases hd
    obtain rfl | hc := hc
    · rfl
    · simp [isPlain, hc]
  · rw [hs] at hd
    cases hd
    rfl

/-- Where no separator is taken, a break is the end of the text. -/
theorem skipped_eq_nil_of_fails (hbreak : AtBreak s) (h : separator.Fails s) : skipped s = [] := by
  cases hs : skipped s with
  | nil => rfl
  | cons c more =>
    have hc : isPlain c = false := hbreak c (by rw [hs]; rfl)
    have hhash : c ≠ '#' := by
      rintro rfl
      exact Bool.noConfusion (ends_skipped s '#' (by rw [hs]; rfl))
    have hnewline : (newline.parse (c :: more)).isSome = isLineBreak c :=
      isSome_parse_newline c more
    have hparse : separator.parse (c :: more) = none := hs ▸ h
    rw [separator, parse_choice, Option.or_eq_none_iff, mark, parse_singleton_cons] at hparse
    rw [hparse.2] at hnewline
    have hsemicolon : c ≠ ';' := fun heq => by simp [heq] at hparse
    have hplain : isPlain c = true := isPlain_iff.mpr ⟨hnewline.symm, hsemicolon, hhash⟩
    rw [hplain] at hc
    cases hc

/-- Separators hold no phrase and build no tree. -/
theorem of_repeats_separator (h : separator.Repeats s trees mid) :
    trees = [] ∧ phrasesOf? s = phrasesOf? mid ∧ separator.Fails mid ∧ mid.length ≤ s.length := by
  induction h with
  | stop hfails => exact ⟨rfl, rfl, hfails, Nat.le_refl _⟩
  | step htakes _ ih =>
    obtain ⟨rfl, hphrases, hfails, hle⟩ := ih
    refine ⟨?_, (phrasesOf?_of_takes_separator htakes).trans hphrases, hfails,
      Nat.le_trans hle (Nat.le_of_lt (htakes.length_lt consumes_separator))⟩
    rw [(separator_of_takes htakes).1]
    rfl

theorem exists_repeats_separator (s : List Char) : ∃ mid, separator.Repeats s [] mid := by
  have h := repeats_repeated consumes_separator s
  rw [(of_repeats_separator h).1] at h
  exact ⟨_, h⟩

/-! ## The statements behind the first one -/

/-- A separator or more, and a statement. -/
def nextStatement : Peg := parts [separators, statement]

/-- Separators, and the end of the text. -/
def textEnd : Peg := parts [many separator, .node .endOfInput .finish]

theorem consumes_nextStatement : nextStatement.Consumes := (consumes_separator.parts _).parts _

/-- The next statement stands behind all separators. -/
theorem takes_nextStatement : nextStatement.Takes s trees rest ↔
    ∃ next mid, separator.Takes s [] next ∧ separator.Repeats next [] mid ∧
      statement.Takes mid trees rest := by
  constructor
  · intro h
    obtain ⟨_, last, _, hseparators, hstatement, rfl⟩ := takes_parts.mp h
    obtain ⟨_, next, _, hfirst, hmany, rfl⟩ := takes_parts.mp hseparators
    obtain ⟨mid, hrepeats, hmid⟩ := repeats_of_takes_many consumes_separator hmany
    obtain rfl := (separator_of_takes hfirst).1
    obtain rfl := (of_repeats_separator hrepeats).1
    exact ⟨next, mid, hfirst, hrepeats, (takes_congr hmid).mpr hstatement⟩
  · rintro ⟨next, mid, hfirst, hrepeats, hstatement⟩
    obtain ⟨last, hmany, hlast⟩ := takes_many_of_repeats consumes_separator hrepeats
    have hseparators : separators.Takes s [] last :=
      takes_parts.mpr ⟨[], next, [], hfirst, hmany, rfl⟩
    exact takes_parts.mpr ⟨[], last, trees, hseparators, (takes_congr hlast).mpr hstatement, rfl⟩

theorem takes_textEnd : textEnd.Takes s trees rest ↔
    ∃ mid, separator.Repeats s [] mid ∧ skipped mid = [] ∧ rest = [] ∧
      trees = [.leaf .endOfInput ""] := by
  have hfinish : ∀ mid trees, (node .endOfInput .finish).Takes mid trees rest ↔
      skipped mid = [] ∧ rest = [] ∧ trees = [.leaf .endOfInput ""] := by
    intro mid trees
    have hparse : ∀ trees rest, finish.parse (skipped mid) = some (trees, rest) ↔
        ∃ t, skipped mid = t ++ rest ∧ (t = [] ∧ rest = []) ∧ trees = [] := by
      intro trees rest
      cases skipped mid <;> simp [parse] <;> grind
    refine (parse_leaf_eq_some_iff hparse).trans ?_
    constructor
    · rintro ⟨_, hmid, ⟨rfl, rfl⟩, rfl⟩
      exact ⟨hmid, rfl, rfl⟩
    · rintro ⟨hmid, rfl, rfl⟩
      exact ⟨[], hmid, ⟨rfl, rfl⟩, rfl⟩
  rw [textEnd, takes_many_parts consumes_separator]
  constructor
  · rintro ⟨_, mid, _, hrepeats, hend, rfl⟩
    obtain rfl := (of_repeats_separator hrepeats).1
    obtain ⟨hmid, hrest, rfl⟩ := (hfinish _ _).mp hend
    exact ⟨mid, hrepeats, hmid, hrest, rfl⟩
  · rintro ⟨mid, hrepeats, hmid, hrest, rfl⟩
    exact ⟨[], mid, _, hrepeats, (hfinish _ _).mpr ⟨hmid, hrest, rfl⟩, rfl⟩

theorem phrasesOf?_of_takes_textEnd (h : textEnd.Takes s trees rest) :
    AtBreak s ∧ phrasesOf? s = some [] := by
  obtain ⟨last, hrepeats, hlast, -⟩ := takes_textEnd.mp h
  constructor
  · obtain ⟨-, rfl⟩ | ⟨_, _, _, htakes, -⟩ := hrepeats.first
    · exact fun c hc => by simp [hlast] at hc
    · exact atBreak_of_takes_separator htakes
  · rw [(of_repeats_separator hrepeats).2.1, ← phrasesOf?_skipped, hlast, phrasesOf?_nil]

/-- Statements up to the end of the text are its phrases. -/
theorem phrases_of_repeats (h : nextStatement.Repeats s trees mid) {final : List Tree}
    (hend : textEnd.Takes mid final rest) : AtBreak s ∧ ∃ phrases,
      phrasesOf? s = some phrases ∧ List.Forall₂ Phrase.IsTree phrases trees := by
  induction h with
  | stop _ =>
    obtain ⟨hbreak, hphrases⟩ := phrasesOf?_of_takes_textEnd hend
    exact ⟨hbreak, [], hphrases, .nil⟩
  | step htakes _ ih =>
    obtain ⟨hbreak, phrases, hphrases, htrees⟩ := ih hend
    obtain ⟨next, last, hfirst, hrepeats, hstatement⟩ := takes_nextStatement.mp htakes
    obtain ⟨tokens, phrase, tree, hreads, hphrase, htree, rfl⟩ := phrase_of_takes hstatement
    refine ⟨atBreak_of_takes_separator hfirst, phrase :: phrases, ?_, .cons htree htrees⟩
    rw [phrasesOf?_of_takes_separator hfirst, (of_repeats_separator hrepeats).2.1,
      phrasesOf?_of_reads hreads hphrase hbreak, hphrases]
    rfl

/-- No statement stands at the end of the text. -/
theorem fails_statement_of_skipped_eq_nil (h : skipped s = []) : statement.Fails s := by
  refine fails_iff.mpr fun trees rest htakes => ?_
  obtain ⟨tokens, phrase, tree, hreads, hphrase, -⟩ := phrase_of_takes htakes
  obtain ⟨t, more, rfl⟩ := List.exists_cons_of_ne_nil hphrase.ne_nil
  obtain ⟨_, hscans, -⟩ := reads_cons_iff.mp hreads
  obtain ⟨c, more, hs, -⟩ := hscans.exists_isPlain
  rw [h] at hs
  cases hs

/-- Behind separators, a text that has phrases is at its end or at a statement. -/
theorem takes_statement_of_phrasesOf? {phrases : List Phrase} (hfails : separator.Fails s)
    (h : phrasesOf? s = some phrases) : skipped s = [] ∨ ∃ trees rest others,
      statement.Takes s trees rest ∧ AtBreak rest ∧ phrasesOf? rest = some others := by
  obtain hbreak | ⟨tokens, phrase, rest, hreads, hphrase, hbreak⟩ := reads_of_phrasesOf? h
  · exact .inl (skipped_eq_nil_of_fails hbreak hfails)
  · obtain ⟨trees, htakes⟩ := takes_statement hphrase hreads hbreak.stops
    rw [phrasesOf?_of_reads hreads hphrase hbreak] at h
    obtain ⟨others, hothers, -⟩ := Option.map_eq_some_iff.mp h
    exact .inr ⟨trees, rest, others, htakes, hbreak, hothers⟩

/-- From a break on, a text that has phrases is taken up to its end. -/
theorem exists_repeats_of_phrasesOf? {phrases : List Phrase} (hbreak : AtBreak s)
    (h : phrasesOf? s = some phrases) : ∃ trees mid final,
      nextStatement.Repeats s trees mid ∧ textEnd.Takes mid final [] := by
  induction hn : s.length using Nat.strong_induction_on generalizing s phrases with
  | h n ih =>
    subst hn
    obtain ⟨mid, hrepeats⟩ := exists_repeats_separator s
    obtain ⟨-, hphrases, hfails, hle⟩ := of_repeats_separator hrepeats
    rw [hphrases] at h
    obtain hend | ⟨trees, rest, others, htakes, hnext, hothers⟩ :=
      takes_statement_of_phrasesOf? hfails h
    · have hstop : nextStatement.Fails s := by
        refine fails_iff.mpr fun trees rest hstatement => ?_
        obtain ⟨next, last, hfirst, hlast, hstatement⟩ := takes_nextStatement.mp hstatement
        obtain ⟨-, rfl⟩ := hrepeats.unique (.step hfirst hlast)
        exact fails_iff.mp (fails_statement_of_skipped_eq_nil hend) _ _ hstatement
      exact ⟨[], s, _, .stop hstop, takes_textEnd.mpr ⟨mid, hrepeats, hend, rfl, rfl⟩⟩
    · obtain ⟨hfails, rfl⟩ | ⟨front, next, back, hfirst, hlast⟩ := hrepeats.first
      · -- no separator stands here, and so no statement
        have hend := skipped_eq_nil_of_fails hbreak hfails
        exact absurd htakes (fails_iff.mp (fails_statement_of_skipped_eq_nil hend) _ _)
      · obtain rfl := (separator_of_takes hfirst).1
        obtain rfl := (of_repeats_separator hlast).1
        have hstep := takes_nextStatement.mpr ⟨next, mid, hfirst, hlast, htakes⟩
        have hlt : rest.length < s.length := hstep.length_lt consumes_nextStatement
        obtain ⟨more, last, final, hmore, hfinal⟩ := ih _ hlt hnext hothers rfl
        exact ⟨_, last, final, .step hstep hmore, hfinal⟩

/-! ## Programs -/

/-- The statements of a program, if there are any. -/
def statements : Peg := opt (parts [statement, many nextStatement])

theorem parse_program_eq_some_iff : program.parse s = some (trees, rest) ↔
    ∃ children, (parts [many separator, statements, many separator,
      .node .endOfInput .finish]).Takes s children rest ∧
        trees = [⟨.program, String.ofList (s.take (s.length - rest.length)), children⟩] :=
  parse_node_eq_some_iff.trans
    (exists_congr fun _ => and_congr_left fun _ => parse_parts_empty)

/-- **What the grammar takes for a program has phrases**, and its tree is the tree of them. -/
theorem phrases_of_parse_program (h : program.parse s = some (trees, rest)) : ∃ phrases,
    phrasesOf? s = some phrases ∧ IsProgramTree phrases trees := by
  obtain ⟨children, hparts, rfl⟩ := parse_program_eq_some_iff.mp h
  obtain ⟨_, start, _, hrepeats, hstatements, rfl⟩ :=
    (takes_many_parts consumes_separator).mp hparts
  obtain ⟨rfl, hphrases, -, -⟩ := of_repeats_separator hrepeats
  obtain ⟨front, mid, final, hopt, hend, rfl⟩ := takes_parts.mp hstatements
  have hend : textEnd.Takes mid final rest := hend
  obtain ⟨_, -, -, -, rfl⟩ := takes_textEnd.mp hend
  suffices ∃ phrases, phrasesOf? start = some phrases ∧
      List.Forall₂ Phrase.IsTree phrases front by
    obtain ⟨phrases, hstart, htrees⟩ := this
    exact ⟨phrases, hphrases.trans hstart, .intro htrees _⟩
  obtain hsome | ⟨-, rfl, rfl⟩ := takes_opt.mp hopt
  · obtain ⟨_, next, more, hstatement, hmany, rfl⟩ := takes_parts.mp hsome
    obtain ⟨tokens, phrase, tree, hreads, hphrase, htree, rfl⟩ := phrase_of_takes hstatement
    obtain ⟨last, hrepeats, hlast⟩ := repeats_of_takes_many consumes_nextStatement hmany
    obtain ⟨hbreak, phrases, hmore, htrees⟩ :=
      phrases_of_repeats hrepeats ((takes_congr hlast).mpr hend)
    refine ⟨phrase :: phrases, ?_, .cons htree htrees⟩
    rw [phrasesOf?_of_reads hreads hphrase hbreak, hmore]
    rfl
  · exact ⟨[], (phrasesOf?_of_takes_textEnd (takes_skipped_iff.mp hend)).2, .nil⟩

/-- **A text that has phrases is taken for a program by the grammar.** -/
theorem exists_parse_program {phrases : List Phrase} (h : phrasesOf? s = some phrases) :
    ∃ found, program.parse s = some found := by
  obtain ⟨start, hrepeats⟩ := exists_repeats_separator s
  obtain ⟨-, hphrases, hfails, -⟩ := of_repeats_separator hrepeats
  suffices ∃ children, (parts [statements, many separator, .node .endOfInput .finish]).Takes start
      children [] by
    obtain ⟨children, hchildren⟩ := this
    have hparts := (takes_many_parts consumes_separator).mpr
      ⟨[], start, children, hrepeats, hchildren, rfl⟩
    exact ⟨_, parse_program_eq_some_iff.mpr ⟨_, hparts, rfl⟩⟩
  rw [hphrases] at h
  obtain hend | ⟨trees, rest, others, htakes, hbreak, hothers⟩ :=
    takes_statement_of_phrasesOf? hfails h
  · have hnone : (parts [statement, many nextStatement]).Fails start :=
      (fails_statement_of_skipped_eq_nil hend).parts _
    have hfinal : textEnd.Takes (skipped start) _ [] :=
      takes_skipped_iff.mpr (takes_textEnd.mpr ⟨start, .stop hfails, hend, rfl, rfl⟩)
    exact ⟨_, takes_parts.mpr ⟨[], skipped start, _, takes_opt.mpr (.inr ⟨hnone, rfl, rfl⟩),
      hfinal, rfl⟩⟩
  · obtain ⟨more, mid, final, hmore, hfinal⟩ := exists_repeats_of_phrasesOf? hbreak hothers
    obtain ⟨last, hmany, hlast⟩ := takes_many_of_repeats consumes_nextStatement hmore
    have hsome : (parts [statement, many nextStatement]).Takes start _ last :=
      takes_parts.mpr ⟨_, rest, _, htakes, hmany, rfl⟩
    have hfinal : textEnd.Takes last final [] := (takes_congr hlast).mpr hfinal
    exact ⟨_, takes_parts.mpr ⟨_, last, final, takes_opt.mpr (.inl hsome), hfinal, rfl⟩⟩

/-- **The grammar and the pieces give the same statements, or the same error.** -/
theorem readByGrammar_eq (text : String) :
    readByGrammar text = (readProgram text).mapError .program := by
  unfold readByGrammar
  split
  · rename_i hnone
    cases hphrases : phrases? text with
    | none => rw [readProgram, hphrases]; rfl
    | some phrases =>
      obtain ⟨found, hfound⟩ := exists_parse_program hphrases
      rw [hnone] at hfound
      cases hfound
  · rename_i trees rest hsome
    obtain ⟨phrases, hphrases, htree⟩ := phrases_of_parse_program hsome
    exact programOf_eq hphrases htree

end ExactLinear.Command
