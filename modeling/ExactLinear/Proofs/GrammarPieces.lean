import ExactLinear.Proofs.GrammarPhrases
import ExactLinear.Proofs.Pieces

/-!
# The pieces of a text as the grammar reads them

The grammar reads a text from its front on and knows nothing of pieces. But no token goes on behind
a semicolon, a `#` or a line break: what `scan?` finds in a piece does not depend on what follows
the piece (`scan?_append`). So tokens that are read up to a separator are all the tokens of a piece
(`lex_of_reads`), and they give the first phrase of the text (`phrasesOf?_of_reads`).
-/

namespace ExactLinear

section

variable {p : Char → Bool} {tail : List Char}

theorem Ends.takeWhile_append_rest (h : Ends p tail) (s : List Char) :
    (s ++ tail).takeWhile p = s.takeWhile p := by
  induction s with
  | nil => exact h.takeWhile_eq_nil
  | cons c s ih =>
    rw [List.cons_append, List.takeWhile_cons, List.takeWhile_cons, ih]

theorem Ends.dropWhile_append_rest (h : Ends p tail) (s : List Char) :
    (s ++ tail).dropWhile p = s.dropWhile p ++ tail := by
  induction s with
  | nil => exact h.dropWhile_eq_self
  | cons c s ih =>
    rw [List.cons_append, List.dropWhile_cons, List.dropWhile_cons, ih]
    split <;> rfl

end

namespace Command

open Peg Grammar

variable {c : Char} {s mid rest tail : List Char} {t : Token} {tokens : List Token}
  {trees : List Tree} {phrase : Phrase}

/-! ## A token ends with its piece -/

theorem ends_of_endsTokens {p : Char → Bool} (h : ∀ c, EndsTokens c → p c = false)
    (htail : ∀ c ∈ tail.head?, isPlain c = false) : Ends p tail :=
  fun c hc => h c (endsTokens_of_not_isPlain (htail c hc))

theorem scanDenominator_append_tail (htail : ∀ c ∈ tail.head?, isPlain c = false) (s : List Char) :
    scanDenominator (s ++ tail) = ((scanDenominator s).1, (scanDenominator s).2 ++ tail) := by
  have hdigit : Ends Char.isDigit tail := ends_of_endsTokens (fun _ h => h.1) htail
  have hslash : Ends (fun c => c.isDigit || c = '/') tail :=
    ends_of_endsTokens (fun c h => by simp [h.1, h.2.2]) htail
  cases s with
  | nil => exact scanDenominator_eq_nil hslash
  | cons c more =>
    by_cases hc : c = '/'
    · subst hc
      cases more with
      | nil =>
        cases tail with
        | nil => rfl
        | cons d rest => simp [scanDenominator, hdigit d rfl]
      | cons d more =>
        simp only [List.cons_append, scanDenominator]
        split_ifs with hd
        · rw [hdigit.takeWhile_append_rest, hdigit.dropWhile_append_rest]
        · rfl
    · have hnone : ∀ more, scanDenominator (c :: more) = ([], c :: more) := by
        intro more
        unfold scanDenominator
        split
        · rename_i heq
          exact absurd (List.cons.inj heq).1 hc
        · rfl
      rw [List.cons_append, hnone, hnone]
      rfl

/-- What is scanned from a piece does not depend on what stands behind the piece. -/
theorem scan?_append (htail : ∀ c ∈ tail.head?, isPlain c = false) (c : Char) (s : List Char) :
    scan? c (s ++ tail) = (scan? c s).map fun found => (found.1, found.2 ++ tail) := by
  have hdigit : Ends Char.isDigit tail := ends_of_endsTokens (fun _ h => h.1) htail
  have hword : Ends isWordChar tail := ends_of_endsTokens (fun _ h => h.2.1) htail
  have hnumber : ∀ start s, scanNumber start (s ++ tail) =
      ((scanNumber start s).1, (scanNumber start s).2 ++ tail) := by
    intro start s
    simp only [scanNumber, hdigit.takeWhile_append_rest, hdigit.dropWhile_append_rest,
      scanDenominator_append_tail htail]
  have hmark : ∀ s, scanMark c (s ++ tail) =
      (scanMark c s).map fun found => (found.1, found.2 ++ tail) := by
    intro s
    unfold scanMark
    split_ifs <;> rfl
  unfold scan?
  split_ifs with halpha hd
  · simp only [scanWord, hword.takeWhile_append_rest, hword.dropWhile_append_rest]
    split_ifs <;> rfl
  · rw [hnumber]
    rfl
  · cases s with
    | nil =>
      cases tail with
      | nil => exact hmark []
      | cons d more =>
        have hd : d.isDigit = false := hdigit d rfl
        simpa [hd] using hmark []
    | cons d more =>
      simp only [List.cons_append]
      split_ifs
      · rw [hnumber]
        rfl
      · exact hmark (d :: more)

/-! ## The tokens of a piece -/

theorem skipped_blank (hc : isSpace c = true) (s : List Char) : skipped (c :: s) = skipped s := by
  rw [skipped, skipped, List.dropWhile_cons_of_pos hc]

theorem skipped_blanks {blanks : List Char} (h : Blank blanks) (s : List Char) :
    skipped (blanks ++ s) = skipped s := by
  induction blanks with
  | nil => rfl
  | cons c blanks ih =>
    obtain ⟨hc, hblanks⟩ := List.forall_mem_cons.mp h
    rw [List.cons_append, skipped_blank hc, ih hblanks]

theorem skipped_plain (hspace : isSpace c = false) (hplain : isPlain c = true) (s : List Char) :
    skipped (c :: s) = c :: s :=
  skipped_of_ends (.cons (by simp [isSkipped, hspace, (isPlain_iff.mp hplain).2.2]) s)

/-- Behind the blanks and the comment at its front, the text is at its end or at a separator. -/
def AtBreak (s : List Char) : Prop := ∀ c ∈ (skipped s).head?, isPlain c = false

/-- A token starts with a plain character. -/
theorem Scans.exists_isPlain (h : Scans s t rest) : ∃ c more, s = c :: more ∧ isPlain c = true := by
  cases h with
  | name hc => exact ⟨_, _, rfl, isPlain_of_isAlpha hc⟩
  | word hc => exact ⟨_, _, rfl, isPlain_of_isAlpha (isAlpha_of_isLower hc)⟩
  | number negative hd =>
    cases negative with
    | false => exact ⟨_, _, rfl, isPlain_of_isDigit hd⟩
    | true => exact ⟨_, _, rfl, rfl⟩
  | mark hc =>
    have hall : marks.all isPlain = true := rfl
    exact ⟨_, _, rfl, List.all_eq_true.mp hall _ hc⟩

theorem AtBreak.stops (h : AtBreak s) : Stops s := by
  intro t rest hscans
  obtain ⟨c, more, hs, hc⟩ := hscans.exists_isPlain
  have hnot := h c (by rw [hs]; rfl)
  rw [hc] at hnot
  cases hnot

theorem atBreak_of_head (h : ∀ c ∈ s.head?, isPlain c = false) : AtBreak s := by
  have hspace : Ends isSpace s := fun c hc => Bool.eq_false_iff.mpr fun hspace =>
    Bool.eq_false_iff.mp (h c hc) (isPlain_of_isSpace hspace)
  unfold AtBreak skipped
  rw [hspace.dropWhile_eq_self]
  split
  · intro c hc
    have hbreak := ends_dropWhile (!isLineBreak ·) _ c hc
    simp only [Bool.not_eq_false'] at hbreak
    simp [isPlain, hbreak]
  · exact h

theorem not_atBreak (hspace : isSpace c = false) (hplain : isPlain c = true) (s : List Char) :
    ¬AtBreak (c :: s) := by
  intro h
  have hnot := h c (by rw [skipped_plain hspace hplain]; rfl)
  rw [hplain] at hnot
  cases hnot

/-- What a token leaves is the back of what there was. -/
theorem Scans.exists_append (h : Scans s t rest) : ∃ front, s = front ++ rest := by
  cases h with
  | name => exact ⟨[_], rfl⟩
  | @word c body => exact ⟨c :: body, rfl⟩
  | number negative hd hscan =>
    have htext := append_of_scanNumber hscan
    rw [List.append_assoc] at htext
    exact ⟨_, htext⟩
  | mark => exact ⟨[_], rfl⟩

/-- A token in a piece leaves a piece. -/
theorem forall_isPlain_of_scan? (h : scan? c s = some (t, rest))
    (hplain : ∀ d ∈ c :: s, isPlain d = true) : ∀ d ∈ rest, isPlain d = true := by
  obtain ⟨front, hfront⟩ := (scans_of_scan? h).exists_append
  exact fun d hd => hplain d (hfront ▸ List.mem_append_right front hd)

/-- The tokens of a piece stand at its front, whatever stands behind the piece. -/
theorem reads_of_lex (htail : ∀ c ∈ tail.head?, isPlain c = false)
    (hplain : ∀ c ∈ s, isPlain c = true) (h : lex s = some tokens) :
    ∃ blanks, Blank blanks ∧ Reads (s ++ tail) tokens (blanks ++ tail) := by
  fun_induction lex s generalizing tokens with
  | case1 =>
    cases h
    exact ⟨[], .nil, .nil _⟩
  | case2 c s hspace ih =>
    obtain ⟨blanks, hblanks, hreads⟩ := ih (List.forall_mem_cons.mp hplain).2 h
    cases tokens with
    | nil =>
      obtain rfl := List.append_cancel_right (reads_nil_iff.mp hreads)
      exact ⟨c :: blanks, List.forall_mem_cons.mpr ⟨hspace, hblanks⟩, .nil _⟩
    | cons t tokens =>
      refine ⟨blanks, hblanks, ?_⟩
      rw [reads_cons_iff] at hreads ⊢
      rwa [List.cons_append, skipped_blank hspace]
  | case3 => cases h
  | case4 c s hspace t rest hscan ih =>
    have hc := hplain c List.mem_cons_self
    obtain ⟨others, hothers, rfl⟩ := Option.map_eq_some_iff.mp h
    have hscans : Scans (c :: (s ++ tail)) t (rest ++ tail) :=
      scans_of_scan? (by rw [scan?_append htail, hscan]; rfl)
    obtain ⟨blanks, hblanks, hreads⟩ := ih (forall_isPlain_of_scan? hscan hplain) hothers
    refine ⟨blanks, hblanks, .cons ?_ hreads⟩
    rwa [List.cons_append, skipped_plain (by simpa using hspace) hc]

/-- Tokens that end at a separator are all the tokens of the piece. -/
theorem lex_of_reads (htail : ∀ c ∈ tail.head?, isPlain c = false)
    (hplain : ∀ c ∈ s, isPlain c = true) (h : Reads (s ++ tail) tokens rest)
    (hbreak : AtBreak rest) :
    lex s = some tokens ∧ ∃ blanks, Blank blanks ∧ rest = blanks ++ tail := by
  fun_induction lex s generalizing tokens rest with
  | case1 =>
    cases tokens with
    | nil => exact ⟨rfl, [], .nil, reads_nil_iff.mp h⟩
    | cons t tokens =>
      obtain ⟨mid, hscans, -⟩ := reads_cons_iff.mp h
      exact absurd hscans ((atBreak_of_head htail).stops _ _)
  | case2 c s hspace ih =>
    have hs := (List.forall_mem_cons.mp hplain).2
    cases tokens with
    | nil =>
      obtain rfl := reads_nil_iff.mp h
      rw [AtBreak, List.cons_append, skipped_blank hspace] at hbreak
      obtain ⟨hlex, blanks, hblanks, hrest⟩ := ih hs (.nil _) hbreak
      exact ⟨hlex, c :: blanks, List.forall_mem_cons.mpr ⟨hspace, hblanks⟩, congrArg (c :: ·) hrest⟩
    | cons t tokens =>
      refine ih hs ?_ hbreak
      rw [reads_cons_iff] at h ⊢
      rwa [List.cons_append, skipped_blank hspace] at h
  | case3 c s hspace hscan =>
    have hspace : isSpace c = false := by simpa using hspace
    have hc := hplain c List.mem_cons_self
    cases tokens with
    | nil =>
      obtain rfl := reads_nil_iff.mp h
      exact absurd hbreak (not_atBreak hspace hc _)
    | cons t tokens =>
      obtain ⟨mid, hscans, -⟩ := reads_cons_iff.mp h
      rw [List.cons_append, skipped_plain hspace hc] at hscans
      obtain ⟨_, _, ⟨⟩, hscans⟩ := hscans.scan?
      rw [scan?_append htail, hscan] at hscans
      cases hscans
  | case4 c s hspace t next hscan ih =>
    have hspace : isSpace c = false := by simpa using hspace
    have hc := hplain c List.mem_cons_self
    cases tokens with
    | nil =>
      obtain rfl := reads_nil_iff.mp h
      exact absurd hbreak (not_atBreak hspace hc _)
    | cons t' tokens =>
      obtain ⟨mid, hscans, hreads⟩ := reads_cons_iff.mp h
      rw [List.cons_append, skipped_plain hspace hc] at hscans
      obtain ⟨_, _, ⟨⟩, hscans⟩ := hscans.scan?
      rw [scan?_append htail, hscan] at hscans
      cases hscans
      obtain ⟨hlex, hblanks⟩ := ih (forall_isPlain_of_scan? hscan hplain) hreads hbreak
      exact ⟨by rw [hlex]; rfl, hblanks⟩

/-! ## The phrases of a text -/

theorem phrasesOf?_skipped (s : List Char) : phrasesOf? (skipped s) = phrasesOf? s := by
  induction s with
  | nil => rfl
  | cons c s ih =>
    cases hspace : isSpace c with
    | true => rw [skipped_blank hspace, ih, phrasesOf?_blank hspace]
    | false =>
      by_cases hhash : c = '#'
      · subst hhash
        rw [phrasesOf?_hash]
        rfl
      · rw [skipped_of_ends (.cons (by simp [isSkipped, hspace, hhash]) s)]

/-- Blanks at the front of a text change nothing. -/
theorem phrasesOf?_blanks {blanks : List Char} (h : Blank blanks) (s : List Char) :
    phrasesOf? (blanks ++ s) = phrasesOf? s := by
  rw [← phrasesOf?_skipped, skipped_blanks h, phrasesOf?_skipped]

/-- A text is a piece with something behind it. -/
theorem exists_piece (s : List Char) : ∃ piece tail, s = piece ++ tail ∧
    (∀ c ∈ piece, isPlain c = true) ∧ ∀ c ∈ tail.head?, isPlain c = false :=
  ⟨s.takeWhile isPlain, s.dropWhile isPlain, List.takeWhile_append_dropWhile.symm,
    List.all_eq_true.mp List.all_takeWhile, ends_dropWhile isPlain s⟩

theorem PhraseTokens.ne_nil (h : PhraseTokens phrase tokens) : tokens ≠ [] := by
  cases h with
  | run hwhat =>
    obtain ⟨t, more, rfl, -⟩ := hwhat.exists_cons
    exact List.cons_ne_nil t more
  | _ => exact List.cons_ne_nil _ _

/-- The tokens of a phrase in front of a separator are the first phrase of a text. -/
theorem phrasesOf?_of_reads (h : Reads s tokens rest) (hphrase : PhraseTokens phrase tokens)
    (hbreak : AtBreak rest) : phrasesOf? s = (phrasesOf? rest).map (phrase :: ·) := by
  obtain ⟨piece, tail, rfl, hplain, htail⟩ := exists_piece s
  obtain ⟨hlex, blanks, hblanks, rfl⟩ := lex_of_reads htail hplain h hbreak
  have hpiece : piecePhrases? piece = some [phrase] := by
    obtain ⟨t, more, rfl⟩ := List.exists_cons_of_ne_nil hphrase.ne_nil
    rw [piecePhrases?, hlex]
    dsimp only
    rw [Phrase.ofTokens?_eq_some_iff.mpr hphrase]
    rfl
  rw [phrasesOf?_append hplain htail, hpiece, phrasesOf?_blanks hblanks]
  rfl

/-- The first piece of a text that has phrases is blank or has the tokens of a phrase. -/
theorem reads_of_phrasesOf? {phrases : List Phrase} (h : phrasesOf? s = some phrases) :
    AtBreak s ∨ ∃ tokens phrase rest, Reads s tokens rest ∧ PhraseTokens phrase tokens ∧
      AtBreak rest := by
  obtain ⟨piece, tail, rfl, hplain, htail⟩ := exists_piece s
  have hskip : ∀ blanks, Blank blanks → AtBreak (blanks ++ tail) := by
    intro blanks hblanks
    rw [AtBreak, skipped_blanks hblanks]
    exact atBreak_of_head htail
  rw [phrasesOf?_append hplain htail, Option.bind_eq_some_iff] at h
  obtain ⟨found, hfound, -⟩ := h
  unfold piecePhrases? at hfound
  split at hfound
  · cases hfound
  · rename_i hlex
    obtain ⟨blanks, hblanks, hreads⟩ := reads_of_lex htail hplain hlex
    rw [reads_nil_iff] at hreads
    exact .inl (hreads ▸ hskip blanks hblanks)
  · rename_i tokens _ hlex
    obtain ⟨phrase, hphrase, -⟩ := Option.map_eq_some_iff.mp hfound
    obtain ⟨blanks, hblanks, hreads⟩ := reads_of_lex htail hplain hlex
    exact .inr ⟨tokens, phrase, _, hreads, Phrase.ofTokens?_eq_some_iff.mp hphrase,
      hskip blanks hblanks⟩

end Command

end ExactLinear
