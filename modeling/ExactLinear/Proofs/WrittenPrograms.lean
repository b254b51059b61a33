import ExactLinear.Proofs.Concatenation
import ExactLinear.Proofs.StatementTokens

/-!
# Programs as they are written

`Written` is the layout of a program: blanks between the tokens of a statement, separations between
the statements, comments at the ends of lines. A text is cut into pieces exactly where it was put
together, and each piece has the tokens of its statement, so whatever the layout is, the program
reads as the statements that were written. The main result is `readProgram_of_written`.
-/

namespace ExactLinear

namespace Command

/-! ## The layout of a program -/

/-- A comment up to the end of its line, or nothing. -/
inductive Comment : List Char → Prop where
  | none : Comment []
  | some {body : List Char} (h : ∀ c ∈ body, isLineBreak c = false) : Comment ('#' :: body)

/-- A run of semicolons and line breaks that is not empty, with blanks before any of them and a
comment before any line break. -/
inductive Separation : List Char → Prop where
  | semicolon {blanks : List Char} (h : Blank blanks) : Separation (blanks ++ [';'])
  | newline {blanks comment : List Char} {newline : String} (hblanks : Blank blanks)
      (hcomment : Comment comment) (hnewline : newline ∈ newlines) :
      Separation (blanks ++ comment ++ newline.toList)
  | append {a b : List Char} (ha : Separation a) (hb : Separation b) : Separation (a ++ b)

/-- The texts of a program: its statements in any spacing, with a separation between each two and,
where one likes, before the first one and behind the last one, and perhaps a comment at the end. -/
inductive Written : List Statement → List Char → Prop where
  | nil {blanks comment : List Char} (hblanks : Blank blanks) (hcomment : Comment comment) :
      Written [] (blanks ++ comment)
  | separated {statements : List Statement} {separation rest : List Char}
      (hseparation : Separation separation) (hrest : Written statements rest) :
      Written statements (separation ++ rest)
  | last {statement : Statement} {tokens : List Token} {text comment : List Char}
      (hspelled : StatementSpelled statement tokens) (htext : Spaced tokens text)
      (hcomment : Comment comment) : Written [statement] (text ++ comment)
  | cons {statement : Statement} {statements : List Statement} {tokens : List Token}
      {text separation rest : List Char} (hspelled : StatementSpelled statement tokens)
      (htext : Spaced tokens text) (hseparation : Separation separation)
      (hrest : Written statements rest) :
      Written (statement :: statements) (text ++ separation ++ rest)

variable {statement : Statement} {statements : List Statement} {tokens : List Token}
  {text : List Char}

/-! ## A text is cut where it was put together -/

theorem isPlain_of_mem_write (r : Rat) : ∀ c ∈ (Literal.write r).toList, isPlain c = true :=
  Literal.forall_mem_write (fun _ => isPlain_of_isDigit) rfl rfl r

theorem Token.Valid.isPlain {t : Token} (h : t.Valid) : ∀ c ∈ t.chars, isPlain c = true := by
  cases h with
  | name hletter =>
    intro c hc
    obtain rfl := List.mem_singleton.mp hc
    exact isPlain_of_isAlpha hletter
  | word hfirst hne hbody =>
    intro c hc
    rw [Token.chars, String.toList_ofList, List.mem_cons] at hc
    obtain rfl | hc := hc
    · exact isPlain_of_isAlpha (isAlpha_of_isLower hfirst)
    · exact isPlain_of_isWordChar (hbody c hc)
  | number r => exact isPlain_of_mem_write r
  | mark hmark =>
    intro c hc
    obtain rfl := List.mem_singleton.mp hc
    have hall : marks.all Command.isPlain = true := rfl
    exact List.all_eq_true.mp hall c hmark

theorem Spaced.isPlain (h : Spaced tokens text) (hvalid : ∀ t ∈ tokens, t.Valid) :
    ∀ c ∈ text, isPlain c = true := by
  induction h with
  | nil hblanks => exact fun c hc => isPlain_of_isSpace (hblanks c hc)
  | cons hblanks t hrest ih =>
    obtain ⟨ht, htokens⟩ := List.forall_mem_cons.mp hvalid
    intro c hc
    rw [List.mem_append, List.mem_append] at hc
    obtain (hc | hc) | hc := hc
    · exact isPlain_of_isSpace (hblanks c hc)
    · exact ht.isPlain c hc
    · exact ih htokens c hc

theorem pieces_comment {comment : List Char} (h : Comment comment) : pieces comment = [[]] := by
  cases h with
  | none => rfl
  | @some body hbody =>
    have hbreak : ∀ c ∈ '#' :: body, isLineBreak c = false :=
      List.forall_mem_cons.mpr ⟨rfl, hbody⟩
    rw [pieces, List.splitOnP_eq_singleton hbreak]
    rfl

theorem phrasesOf?_append_comment (h : ∀ c ∈ text, isPlain c = true) {comment : List Char}
    (hcomment : Comment comment) : phrasesOf? (text ++ comment) = piecePhrases? text := by
  rw [phrasesOf?, pieces_append h, pieces_comment hcomment, List.modifyHead_cons, List.append_nil]
  cases htext : piecePhrases? text <;> simp [htext]

theorem phrasesOf?_append_semicolon (h : ∀ c ∈ text, isPlain c = true) (rest : List Char) :
    phrasesOf? (text ++ ';' :: rest) =
      (piecePhrases? text).bind fun x => (phrasesOf? rest).map (x ++ ·) := by
  have hpiece : pieces text = [text] := by simpa [pieces_comment .none] using pieces_append h []
  have hpieces : pieces (text ++ ';' :: rest) = pieces text ++ pieces rest := by
    rw [pieces_append h, pieces_semicolon, hpiece, List.modifyHead_cons, List.append_nil]
    rfl
  rw [phrasesOf?_of_pieces_append hpieces, ← phrasesOf?_append_comment h .none, List.append_nil]

/-! ## A program is read as it was written -/

theorem Spaced.piecePhrases?_congr {text' : List Char} (h : Spaced tokens text)
    (h' : Spaced tokens text') (hread : Readable tokens) :
    piecePhrases? text = piecePhrases? text' := by
  rw [piecePhrases?, piecePhrases?, lex_of_spaced h hread,
    lex_of_spaced h' hread]

/-- A separation cuts a text in two. -/
theorem Separation.phrasesOf?_append {separation : List Char} (hseparation : Separation separation)
    (htext : Spaced tokens text) (hread : Readable tokens) (rest : List Char) :
    phrasesOf? (text ++ separation ++ rest) =
      (piecePhrases? text).bind fun x => (phrasesOf? rest).map (x ++ ·) := by
  induction hseparation generalizing tokens text rest with
  | @semicolon blanks hblanks =>
    have hspaced := htext.append_blanks hblanks
    rw [htext.piecePhrases?_congr hspaced hread,
      ← phrasesOf?_append_semicolon (hspaced.isPlain hread.valid)]
    simp only [List.append_assoc, List.cons_append, List.nil_append]
  | @newline blanks comment newline hblanks hcomment hnewline =>
    have hspaced := htext.append_blanks hblanks
    rw [htext.piecePhrases?_congr hspaced hread,
      ← phrasesOf?_append_comment (hspaced.isPlain hread.valid) hcomment,
      ← phrasesOf?_append_newline _ _ hnewline]
    simp only [List.append_assoc]
  | @append a b ha hb iha ihb =>
    -- nothing stands between the two separations
    have hrest : phrasesOf? (b ++ rest) = phrasesOf? rest :=
      (ihb (.nil .nil) .nil rest).trans (bind_piecePhrases?_nil _)
    rw [← hrest, ← iha htext hread]
    simp only [List.append_assoc]

theorem StatementSpelled.piecePhrases? (h : StatementSpelled statement tokens)
    (htext : Spaced tokens text) :
    ∃ phrase, piecePhrases? text = some [phrase] ∧ phrase.toStatement = .ok statement := by
  obtain ⟨phrase, hphrase, hmeaning⟩ := h.phrase
  refine ⟨phrase, ?_, hmeaning⟩
  rw [Command.piecePhrases?, lex_of_spaced htext h.readable]
  cases tokens with
  | nil => cases hphrase
  | cons t tokens =>
    dsimp only
    rw [hphrase]
    rfl

/-- The phrases of a written program mean its statements. -/
theorem Written.phrasesOf? (h : Written statements text) :
    ∃ phrases, phrasesOf? text = some phrases ∧
      phrases.mapM Phrase.toStatement = .ok statements := by
  induction h with
  | nil hblanks hcomment =>
    refine ⟨[], ?_, rfl⟩
    have hspaced : Spaced [] _ := .nil hblanks
    rw [phrasesOf?_append_comment (hspaced.isPlain (by simp)) hcomment, Command.piecePhrases?,
      lex_of_spaced hspaced .nil]
  | separated hseparation hrest ih =>
    obtain ⟨phrases, hphrases, hmeaning⟩ := ih
    have hempty := hseparation.phrasesOf?_append (.nil .nil) .nil
    refine ⟨phrases, ?_, hmeaning⟩
    rw [← hphrases]
    exact (hempty _).trans (bind_piecePhrases?_nil _)
  | last hspelled htext hcomment =>
    obtain ⟨phrase, hphrase, hmeaning⟩ := hspelled.piecePhrases? htext
    refine ⟨[phrase], ?_, ?_⟩
    · rw [phrasesOf?_append_comment (htext.isPlain hspelled.readable.valid) hcomment, hphrase]
    · rw [List.mapM_cons, hmeaning]
      rfl
  | cons hspelled htext hseparation hrest ih =>
    obtain ⟨phrase, hphrase, hmeaning⟩ := hspelled.piecePhrases? htext
    obtain ⟨phrases, hphrases, hmeanings⟩ := ih
    refine ⟨phrase :: phrases, ?_, ?_⟩
    · rw [hseparation.phrasesOf?_append htext hspelled.readable, hphrase, hphrases]
      rfl
    · rw [List.mapM_cons, hmeaning, hmeanings]
      rfl

/-- Numbers with a comma and a blank between them, before tokens in some layout. -/
theorem spaced_commaTokens (entries : List Rat) (h : Spaced tokens text) :
    Spaced (commaTokens (entries.map fun x => .number (Literal.write x)) ++ tokens)
      ([',', ' '].intercalate (entries.map fun x => (Literal.write x).toList) ++ text) := by
  induction entries with
  | nil => exact h
  | cons x entries ih =>
    cases entries with
    | nil =>
      rw [List.map_singleton, List.map_singleton, List.intercalate_singleton]
      exact h.cons_chars (.number (Literal.write x))
    | cons y entries =>
      have hblank : Blank [' '] := by simp [Blank, isSpace]
      rw [List.map_cons, List.map_cons, List.map_cons, List.map_cons, commaTokens,
        List.intersperse_cons_cons, List.intercalate_cons_cons, List.append_assoc,
        List.append_assoc]
      exact ((ih.blanks hblank).cons_chars (.mark ',')).cons_chars (.number (Literal.write x))

/-- **A written program is read back, whatever its layout is.** The way a vector is shown is one of
the layouts of its literal. -/
theorem readProgram_of_written :
    (∀ statements text, Written statements text.toList → readProgram text = .ok statements) ∧
      ∀ v : RatVector, Spaced (vectorTokens v) v.text.toList := by
  refine ⟨fun statements text h => ?_, fun v => ?_⟩
  · exact readProgram_eq_ok_iff.mpr h.phrasesOf?
  · have htext : v.text.toList = '(' :: ([',', ' '].intercalate
        (v.entries.map fun x => (Literal.write x).toList) ++ [')']) := by
      rw [RatVector.text, String.toList_append, String.toList_append, String.toList_intercalate,
        List.map_map]
      rfl
    rw [htext]
    exact (spaced_commaTokens v.entries (.cons .nil (.mark ')') (.nil .nil))).cons_chars (.mark '(')

/-- A system and its inverse in a text with comments, where some tokens touch and others do not. -/
theorem readProgram_of_written_system :
    readProgram "# one\r\nA=[[1, -1/2 | 3]] ;B = inv( A)# two" =
      .ok [.define "A" (.matrix ⟨⟨1, 3⟩, [[1, -1/2, 3]], true⟩),
        .bind "B" (.call .inverse ["A"])] := by
  have hblank : Blank [' '] := by simp [Blank, isSpace]
  have hcomment : ∀ body : String, body.toList.all (!isLineBreak ·) →
      Comment ('#' :: body.toList) := fun body h => .some (by simpa using h)
  let m : RatMatrix := ⟨⟨1, 3⟩, [[1, -1/2, 3]], true⟩
  have hm : StatementSpelled (.define 'A'.toString (.matrix m))
      (.name 'A' :: .mark '=' :: matrixTokens m) :=
    .matrix (by decide) (by decide +kernel) (by decide)
  have hinverse : StatementSpelled
      (.bind 'B'.toString (.call .inverse (['A'].map Char.toString)))
      (.name 'B' :: .mark '=' :: .word "inv" :: .mark '(' ::
        (commaTokens (['A'].map .name) ++ [.mark ')'])) :=
    .bind (by decide) (.call (by decide +kernel) (by decide) (List.forall_mem_singleton.mpr rfl))
  have hA := Spaced.cons_chars (.name 'A') <| .cons_chars (.mark '=') <| .cons_chars (.mark '[') <|
    .cons_chars (.mark '[') <| .cons_chars (.number (Literal.write 1)) <| .cons_chars (.mark ',') <|
    .cons hblank (.number (Literal.write (-1/2))) <| .cons hblank (.mark '|') <|
    .cons hblank (.number (Literal.write 3)) <| .cons_chars (.mark ']') <|
    .cons_chars (.mark ']') <| .nil .nil
  have hB := Spaced.cons_chars (.name 'B') <| .cons hblank (.mark '=') <|
    .cons hblank (.word "inv") <| .cons_chars (.mark '(') <| .cons hblank (.name 'A') <|
    .cons_chars (.mark ')') <| .nil .nil
  have hwritten := Written.separated
    (.newline .nil (hcomment " one" (by decide +kernel)) (by decide : "\r\n" ∈ newlines)) <|
    .cons hm hA (.semicolon hblank) <| .last hinverse hB (hcomment " two" (by decide +kernel))
  refine readProgram_of_written.1 _ _ ?_
  convert hwritten using 1
  · decide +kernel
  · decide +kernel

end Command

end ExactLinear
