import ExactLinear.Command.Program
import ExactLinear.Proofs.SpacedTokens

/-!
# The pieces of a text

A text is cut at its line breaks and semicolons, and a comment is cut off. The plain characters at
its front belong to the first piece (`pieces_append`), so the phrases of a text are those of its
first piece followed by those of what stands behind it (`phrasesOf?_append`).
-/

namespace ExactLinear.Command

variable {c : Char} {text : List Char}

/-! ## Where a text is cut -/

/-- The character ends no statement. -/
def isPlain (c : Char) : Bool := !isLineBreak c && c ≠ ';' && c ≠ '#'

theorem isPlain_iff {c : Char} :
    isPlain c = true ↔ isLineBreak c = false ∧ c ≠ ';' ∧ c ≠ '#' := by
  simp [isPlain, and_assoc]

theorem isPlain_of_isWordChar (h : isWordChar c = true) : isPlain c = true := by
  by_contra hc
  simp only [isPlain, isLineBreak, Bool.and_eq_true, Bool.not_eq_true', Bool.or_eq_false_iff,
    decide_eq_false_iff_not, decide_eq_true_eq, not_and_or, not_not] at hc
  rcases hc with ((rfl | rfl) | rfl) | rfl <;> cases h

theorem isPlain_of_isSpace (h : isSpace c = true) : isPlain c = true := by
  simp only [isSpace, Bool.or_eq_true, decide_eq_true_eq] at h
  obtain rfl | rfl := h <;> rfl

theorem isPlain_of_isDigit (h : c.isDigit = true) : isPlain c = true :=
  isPlain_of_isWordChar (by simp [isWordChar, Char.isAlphanum, h])

theorem isPlain_of_isAlpha (h : c.isAlpha = true) : isPlain c = true :=
  isPlain_of_isWordChar (by simp [isWordChar, Char.isAlphanum, h])

/-- What ends a statement ends every token. -/
theorem endsTokens_of_not_isPlain (h : isPlain c = false) : EndsTokens c := by
  refine ⟨?_, ?_, ?_⟩
  · exact Bool.eq_false_iff.mpr fun hc => Bool.eq_false_iff.mp h (isPlain_of_isDigit hc)
  · exact Bool.eq_false_iff.mpr fun hc => Bool.eq_false_iff.mp h (isPlain_of_isWordChar hc)
  · rintro rfl
    cases h

/-- A text without separator is the beginning of the first part. -/
theorem splitOnP_append {p : Char → Bool} {text : List Char} (h : ∀ c ∈ text, p c = false)
    (rest : List Char) :
    (text ++ rest).splitOnP p = (rest.splitOnP p).modifyHead (text ++ ·) := by
  induction text with
  | nil =>
    show _ = (rest.splitOnP p).modifyHead id
    rw [List.modifyHead_id]
    rfl
  | cons c text ih =>
    obtain ⟨hc, htext⟩ := List.forall_mem_cons.mp h
    rw [List.cons_append, List.splitOnP_cons_eq_if_modifyHead, if_neg (by simp [hc]), ih htext,
      List.modifyHead_modifyHead]
    rfl

/-- The pieces of a line that begins with plain characters: they belong to the first piece. -/
theorem linePieces_append (h : ∀ c ∈ text, isPlain c = true) (rest : List Char) :
    linePieces (text ++ rest) = (linePieces rest).modifyHead (text ++ ·) := by
  have hhash : ∀ c ∈ text, decide (c ≠ '#') = true := fun c hc =>
    decide_eq_true (isPlain_iff.mp (h c hc)).2.2
  have hsemicolon : ∀ c ∈ text, decide (c = ';') = false := fun c hc =>
    decide_eq_false (isPlain_iff.mp (h c hc)).2.1
  rw [linePieces, List.takeWhile_append_of_pos hhash, splitOnP_append hsemicolon]
  rfl

theorem pieces_ne_nil (text : List Char) : pieces text ≠ [] := by
  obtain ⟨line, lines, hlines⟩ := List.exists_cons_of_ne_nil (List.splitOnP_ne_nil isLineBreak text)
  rw [pieces, hlines, List.flatMap_cons]
  exact List.append_ne_nil_of_left_ne_nil (List.splitOnP_ne_nil _ _) _

theorem pieces_append (h : ∀ c ∈ text, isPlain c = true) (rest : List Char) :
    pieces (text ++ rest) = (pieces rest).modifyHead (text ++ ·) := by
  have hbreak : ∀ c ∈ text, isLineBreak c = false := fun c hc => (isPlain_iff.mp (h c hc)).1
  obtain ⟨line, lines, hlines⟩ := List.exists_cons_of_ne_nil (List.splitOnP_ne_nil isLineBreak rest)
  obtain ⟨piece, more, hpieces⟩ :=
    List.exists_cons_of_ne_nil (List.splitOnP_ne_nil (· = ';') (line.takeWhile (· ≠ '#')))
  rw [pieces, pieces, splitOnP_append hbreak, hlines, List.modifyHead_cons, List.flatMap_cons,
    List.flatMap_cons, linePieces_append h, linePieces, hpieces]
  rfl

theorem pieces_semicolon (rest : List Char) : pieces (';' :: rest) = [] :: pieces rest := by
  obtain ⟨line, lines, hlines⟩ := List.exists_cons_of_ne_nil (List.splitOnP_ne_nil isLineBreak rest)
  have hline : linePieces (';' :: line) = [] :: linePieces line :=
    List.splitOnP_append_cons [] _ (p := (· = ';')) rfl
  rw [pieces, pieces, List.splitOnP_cons_eq_if_modifyHead, if_neg (by decide), hlines,
    List.modifyHead_cons, List.flatMap_cons, List.flatMap_cons, hline]
  rfl

theorem pieces_lineBreak (hc : isLineBreak c = true) (rest : List Char) :
    pieces (c :: rest) = [] :: pieces rest := by
  have hcut := List.splitOnP_append_cons [] rest hc
  rw [List.nil_append] at hcut
  rw [pieces, hcut, List.flatMap_append]
  rfl

/-- A comment is cut off up to the end of its line. -/
theorem pieces_hash (text : List Char) :
    pieces ('#' :: text) = pieces (text.dropWhile (!isLineBreak ·)) := by
  induction text with
  | nil => rfl
  | cons c text ih =>
    cases hc : isLineBreak c with
    | true =>
      have hcut := List.splitOnP_append_cons ['#'] text hc
      rw [List.cons_append, List.nil_append] at hcut
      rw [List.dropWhile_cons_of_neg (by simp [hc]), pieces_lineBreak hc, pieces, hcut,
        List.flatMap_append]
      rfl
    | false =>
      rw [List.dropWhile_cons_of_pos (by simp [hc]), ← ih]
      have hmark : ∀ d ∈ ['#'], isLineBreak d = false := List.forall_mem_singleton.mpr rfl
      have hmarkThen : ∀ d ∈ ['#', c], isLineBreak d = false :=
        List.forall_mem_cons.mpr ⟨rfl, List.forall_mem_singleton.mpr hc⟩
      have hfront := splitOnP_append hmarkThen text
      have hhash := splitOnP_append hmark text
      obtain ⟨line, lines, hlines⟩ :=
        List.exists_cons_of_ne_nil (List.splitOnP_ne_nil isLineBreak text)
      rw [hlines] at hfront hhash
      simp only [pieces]
      rw [show '#' :: c :: text = ['#', c] ++ text from rfl, hfront,
        show '#' :: text = ['#'] ++ text from rfl, hhash]
      rfl

/-- What starts with no plain character has an empty first piece. -/
theorem exists_pieces_eq_nil_cons (h : ∀ c ∈ text.head?, isPlain c = false) :
    ∃ more, pieces text = [] :: more := by
  have hbreak : ∀ text : List Char, (∀ c ∈ text.head?, isLineBreak c = true) →
      ∃ more, pieces text = [] :: more := by
    intro text h
    cases text with
    | nil => exact ⟨[], rfl⟩
    | cons c rest => exact ⟨_, pieces_lineBreak (h c rfl) rest⟩
  cases text with
  | nil => exact ⟨[], rfl⟩
  | cons c rest =>
    have hc := h c rfl
    simp only [isPlain, Bool.and_eq_false_iff, Bool.not_eq_false', decide_eq_false_iff_not, ne_eq,
      Decidable.not_not] at hc
    obtain (hc | rfl) | rfl := hc
    · exact ⟨_, pieces_lineBreak hc rest⟩
    · exact ⟨_, pieces_semicolon rest⟩
    · rw [pieces_hash]
      refine hbreak _ fun c hc => ?_
      have hnot := List.head?_dropWhile_not (!isLineBreak ·) rest
      rw [Option.mem_def.mp hc] at hnot
      simpa using hnot

/-! ## The phrases of the pieces -/

/-- The phrases of the characters of a text. -/
def phrasesOf? (text : List Char) : Option (List Phrase) :=
  ((pieces text).mapM piecePhrases?).map List.flatten

theorem phrases?_eq_phrasesOf? (text : String) : phrases? text = phrasesOf? text.toList := rfl

theorem phrasesOf?_nil : phrasesOf? [] = some [] := by
  simp [phrasesOf?, pieces, linePieces, piecePhrases?, lex]

/-- Where the pieces of a text are those of two texts, so are the phrases. -/
theorem phrasesOf?_of_pieces_append {text p q : List Char}
    (h : pieces text = pieces p ++ pieces q) :
    phrasesOf? text = (phrasesOf? p).bind fun x => (phrasesOf? q).map (x ++ ·) := by
  unfold phrasesOf?
  rw [h, List.mapM_append]
  cases (pieces p).mapM piecePhrases? with
  | none => rfl
  | some x =>
    cases (pieces q).mapM piecePhrases? with
    | none => rfl
    | some y => exact congrArg some List.flatten_append

theorem phrasesOf?_append_cons (p q : List Char) {c : Char} (hc : isLineBreak c = true) :
    phrasesOf? (p ++ c :: q) = (phrasesOf? p).bind fun x => (phrasesOf? q).map (x ++ ·) := by
  apply phrasesOf?_of_pieces_append
  rw [pieces, pieces, pieces, List.splitOnP_append_cons p q hc, List.flatMap_append]

theorem piecePhrases?_nil : piecePhrases? [] = some [] := by
  rw [piecePhrases?, lex]

theorem bind_piecePhrases?_nil (phrases : Option (List Phrase)) :
    ((piecePhrases? []).bind fun x => phrases.map (x ++ ·)) = phrases := by
  rw [piecePhrases?_nil]
  cases phrases <;> rfl

/-- The phrases of the first piece stand in front of all others. -/
theorem phrasesOf?_append {front : List Char} (hfront : ∀ c ∈ front, isPlain c = true)
    (htext : ∀ c ∈ text.head?, isPlain c = false) :
    phrasesOf? (front ++ text) =
      (piecePhrases? front).bind fun x => (phrasesOf? text).map (x ++ ·) := by
  obtain ⟨more, hmore⟩ := exists_pieces_eq_nil_cons htext
  rw [phrasesOf?, phrasesOf?, pieces_append hfront, hmore, List.modifyHead_cons, List.append_nil,
    List.mapM_cons, List.mapM_cons, piecePhrases?_nil]
  cases piecePhrases? front with
  | none => rfl
  | some x => cases more.mapM piecePhrases? <;> rfl

/-- A semicolon or a line break ends an empty piece. -/
theorem phrasesOf?_separator (hc : c = ';' ∨ isLineBreak c = true) (rest : List Char) :
    phrasesOf? (c :: rest) = phrasesOf? rest := by
  have hpieces : pieces (c :: rest) = pieces [] ++ pieces rest := by
    obtain rfl | hc := hc
    · exact pieces_semicolon rest
    · exact pieces_lineBreak hc rest
  rw [phrasesOf?_of_pieces_append hpieces, phrasesOf?_nil]
  cases phrasesOf? rest <;> rfl

theorem phrasesOf?_hash (text : List Char) :
    phrasesOf? ('#' :: text) = phrasesOf? (text.dropWhile (!isLineBreak ·)) := by
  rw [phrasesOf?, pieces_hash]
  rfl

/-- A blank at the front of a text changes nothing. -/
theorem phrasesOf?_blank (hc : isSpace c = true) (text : List Char) :
    phrasesOf? (c :: text) = phrasesOf? text := by
  have hplain : isPlain c = true := by
    simp only [isSpace, Bool.or_eq_true, decide_eq_true_eq] at hc
    obtain rfl | rfl := hc <;> rfl
  obtain ⟨piece, more, hpieces⟩ := List.exists_cons_of_ne_nil (pieces_ne_nil text)
  have hcut := pieces_append (List.forall_mem_singleton.mpr hplain) text
  have hpiece : piecePhrases? (c :: piece) = piecePhrases? piece := by
    rw [piecePhrases?, piecePhrases?, lex, if_pos hc]
  rw [hpieces] at hcut
  rw [phrasesOf?, phrasesOf?, show c :: text = [c] ++ text from rfl, hcut, hpieces,
    List.modifyHead_cons, List.cons_append, List.nil_append, List.mapM_cons, List.mapM_cons, hpiece]

end ExactLinear.Command
