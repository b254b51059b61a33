import Mathlib.Data.List.Chain
import ExactLinear.Command.Token
import ExactLinear.Proofs.Literals

/-!
# Tokens with blanks around them

The tokens of a piece may have any number of spaces and tabs before, between and behind them, also
none: `Spaced` is this layout. Two tokens may touch where one of them is a mark, since a mark is one
character and ends every other token (`Separable`); only a minus sign must not touch a number. The
main lemma is `lex_of_spaced`: the tokens of a layout are the tokens that were laid out.
-/

namespace ExactLinear.Command

/-- The characters of a token. -/
def Token.chars : Token → List Char
  | .name letter => [letter]
  | .word text => text.toList
  | .number text => text.toList
  | .mark c => [c]

/-- Any number of spaces and tabs. -/
def Blank (s : List Char) : Prop := ∀ c ∈ s, isSpace c = true

/-- Tokens in their order with blanks before, between and behind them. -/
inductive Spaced : List Token → List Char → Prop where
  | nil {blanks : List Char} (h : Blank blanks) : Spaced [] blanks
  | cons {blanks rest : List Char} {tokens : List Token} (h : Blank blanks) (t : Token)
      (hrest : Spaced tokens rest) : Spaced (t :: tokens) (blanks ++ t.chars ++ rest)

/-- The token is one that can be read: a letter, a word, a rational as it is written, or a mark. -/
inductive Token.Valid : Token → Prop where
  | name {c : Char} (h : c.isAlpha = true) : Valid (.name c)
  | word {c : Char} {body : List Char} (hc : c.isLower = true) (hne : body ≠ [])
      (h : ∀ d ∈ body, isWordChar d = true) : Valid (.word (String.ofList (c :: body)))
  | number (r : Rat) : Valid (.number (Literal.write r))
  | mark {c : Char} (h : c ∈ marks) : Valid (.mark c)

/-- The token ends before the given characters. -/
def Token.Ended : Token → List Char → Prop
  | .name _, rest => Ends isWordChar rest
  | .word _, rest => Ends isWordChar rest
  | .number _, rest => Ends (fun c => c.isDigit || c = '/') rest
  | .mark c, rest => c = '-' → Ends Char.isDigit rest

/-- The second token may follow the first one directly. -/
inductive Separable : Token → Token → Prop where
  | before_mark (t : Token) (c : Char) : Separable t (.mark c)
  | after_mark {c : Char} (hc : c ≠ '-') (t : Token) : Separable (.mark c) t
  | after_minus (letter : Char) : Separable (.mark '-') (.name letter)

/-- Each token can be read, and each one may follow the one before it directly. -/
structure Readable (tokens : List Token) : Prop where
  valid : ∀ t ∈ tokens, t.Valid
  chain : tokens.IsChain Separable

variable {t u : Token} {tokens : List Token} {rest text : List Char} {c : Char}

/-! ## Characters -/

theorem isAlpha_of_isLower (h : c.isLower = true) : c.isAlpha = true :=
  Bool.or_eq_true_iff.mpr (.inr h)

theorem isDigit_eq_false_of_isAlpha (h : c.isAlpha = true) : c.isDigit = false := by
  -- the letters come behind the digits
  have hmin : 'A'.toNat ≤ c.toNat := by
    obtain hupper | hlower := Bool.or_eq_true_iff.mp h
    · exact UInt32.le_iff_toNat_le.mp (of_decide_eq_true hupper).1
    · have hlower : 'a'.toNat ≤ c.toNat :=
        UInt32.le_iff_toNat_le.mp (of_decide_eq_true (Bool.and_eq_true_iff.mp hlower).1)
      exact Nat.le_trans (by decide) hlower
  rw [Bool.eq_false_iff, ne_eq, Char.isDigit_iff_toNat]
  rintro ⟨-, hmax⟩
  exact absurd (Nat.le_trans hmin hmax) (by decide)

theorem isSpace_eq_false_of_isAlpha (h : c.isAlpha = true) : isSpace c = false := by
  simp only [isSpace, Bool.or_eq_false_iff, decide_eq_false_iff_not]
  constructor <;> (rintro rfl; cases h)

theorem isSpace_eq_false_of_isDigit (h : c.isDigit = true) : isSpace c = false := by
  simp only [isSpace, Bool.or_eq_false_iff, decide_eq_false_iff_not]
  constructor <;> (rintro rfl; cases h)

theorem isAlpha_eq_false_of_isDigit (h : c.isDigit = true) : c.isAlpha = false := by
  by_contra hc
  rw [isDigit_eq_false_of_isAlpha (by simpa using hc)] at h
  cases h

/-- The character belongs to no token of more than one character. -/
def EndsTokens (c : Char) : Prop := c.isDigit = false ∧ isWordChar c = false ∧ c ≠ '/'

theorem endsTokens_of_isSpace (h : isSpace c = true) : EndsTokens c := by
  simp only [isSpace, Bool.or_eq_true, decide_eq_true_eq] at h
  obtain rfl | rfl := h <;> exact ⟨rfl, rfl, by decide⟩

theorem endsTokens_of_mem_marks (h : c ∈ marks) : EndsTokens c := by
  have hall : marks.all (fun c => !c.isDigit && !isWordChar c && c != '/') = true := rfl
  simpa [EndsTokens, and_assoc] using List.all_eq_true.mp hall c h

theorem isAlpha_eq_false_of_mem_marks (h : c ∈ marks) : c.isAlpha = false := by
  have hall : marks.all (!·.isAlpha) = true := rfl
  simpa using List.all_eq_true.mp hall c h

theorem isSpace_eq_false_of_mem_marks (h : c ∈ marks) : isSpace c = false := by
  have hall : marks.all (!isSpace ·) = true := rfl
  simpa using List.all_eq_true.mp hall c h

/-! ## One token -/

theorem Token.ended_nil (t : Token) : t.Ended [] := by
  cases t with
  | mark c => exact fun _ => Ends.nil _
  | _ => exact Ends.nil _

theorem Token.ended_cons (t : Token) (hc : EndsTokens c) (rest : List Char) :
    t.Ended (c :: rest) := by
  obtain ⟨hdigit, hword, hslash⟩ := hc
  cases t with
  | name letter => exact .cons hword rest
  | word text => exact .cons hword rest
  | number text => exact .cons (by simp [hdigit, hslash]) rest
  | mark d => exact fun _ => .cons hdigit rest

theorem Separable.ended (h : Separable t u) (hu : u.Valid) (rest : List Char) :
    t.Ended (u.chars ++ rest) := by
  cases h with
  | before_mark t c =>
    cases hu with
    | mark hc => exact t.ended_cons (endsTokens_of_mem_marks hc) rest
  | after_mark hc u => exact fun hminus => absurd hminus hc
  | after_minus letter =>
    cases hu with
    | name hletter => exact fun _ => .cons (isDigit_eq_false_of_isAlpha hletter) rest

theorem lex_blanks {blanks : List Char} (h : Blank blanks) (rest : List Char) :
    lex (blanks ++ rest) = lex rest := by
  induction blanks with
  | nil => rfl
  | cons c blanks ih =>
    obtain ⟨hc, hblanks⟩ := List.forall_mem_cons.mp h
    rw [List.cons_append, lex, if_pos hc, ih hblanks]

theorem lex_cons {s : List Char} (hc : isSpace c = false) (h : scan? c s = some (t, rest)) :
    lex (c :: s) = (lex rest).map (t :: ·) := by
  rw [lex, if_neg (by simp [hc])]
  split
  · rename_i hnone
    rw [h] at hnone
    cases hnone
  · rename_i t' rest' hsome
    rw [h] at hsome
    cases hsome
    rfl

theorem scanDenominator_eq_nil (h : Ends (fun c => c.isDigit || c = '/') rest) :
    scanDenominator rest = ([], rest) := by
  unfold scanDenominator
  split
  · exact absurd (h '/' rfl) (by decide)
  · rfl

/-- The denominator of a literal is read up to its end. -/
theorem scanDenominator_append {denom? : Option (List Char)}
    (hdenom : ∀ denom ∈ denom?, Literal.isDigits denom = true)
    (h : Ends (fun c => c.isDigit || c = '/') rest) :
    scanDenominator (denom?.elim [] ('/' :: ·) ++ rest) = (denom?.elim [] ('/' :: ·), rest) := by
  have hend : Ends Char.isDigit rest := fun c hc => (Bool.or_eq_false_iff.mp (h c hc)).1
  cases denom? with
  | none => exact scanDenominator_eq_nil h
  | some denom =>
    obtain ⟨hne, hdigits⟩ := Literal.isDigits_iff.mp (hdenom denom rfl)
    obtain ⟨c, more, rfl⟩ := List.exists_cons_of_ne_nil hne
    obtain ⟨hc, hmore⟩ := List.forall_mem_cons.mp hdigits
    simp only [Option.elim_some, List.cons_append, scanDenominator, hc, if_true]
    rw [hend.takeWhile_append hmore, hend.dropWhile_append hmore]

theorem scanNumber_append (start : List Char) {more : List Char} {denom? : Option (List Char)}
    (hmore : ∀ d ∈ more, d.isDigit = true)
    (hdenom : ∀ denom ∈ denom?, Literal.isDigits denom = true)
    (h : Ends (fun c => c.isDigit || c = '/') rest) :
    scanNumber start (more ++ (denom?.elim [] ('/' :: ·) ++ rest)) =
      (.number (String.ofList (start ++ more ++ denom?.elim [] ('/' :: ·))), rest) := by
  have hend : Ends Char.isDigit (denom?.elim [] ('/' :: ·) ++ rest) := by
    cases denom? with
    | none => exact fun c hc => (Bool.or_eq_false_iff.mp (h c hc)).1
    | some denom => exact .cons rfl _
  rw [scanNumber, hend.takeWhile_append hmore, hend.dropWhile_append hmore,
    scanDenominator_append hdenom h]

theorem scan?_of_isAlpha (hc : c.isAlpha = true) (s : List Char) :
    scan? c s = scanWord c s := by
  unfold scan?
  rw [if_pos hc]

theorem scan?_of_isDigit (hc : c.isDigit = true) (s : List Char) :
    scan? c s = some (scanNumber [c] s) := by
  unfold scan?
  rw [if_neg (by simp [isAlpha_eq_false_of_isDigit hc]), if_pos hc]

theorem scan?_minus (hc : c.isDigit = true) (s : List Char) :
    scan? '-' (c :: s) = some (scanNumber ['-', c] s) := by
  unfold scan?
  rw [if_neg (by decide), if_neg (by decide)]
  exact if_pos ⟨rfl, hc⟩

theorem scan?_mark (hc : c ∈ marks) (h : c = '-' → Ends Char.isDigit rest) :
    scan? c rest = some (.mark c, rest) := by
  have halpha := isAlpha_eq_false_of_mem_marks hc
  have hdigit := (endsTokens_of_mem_marks hc).1
  have hmark : ∀ s, scanMark c s = some (.mark c, s) := fun s => if_pos hc
  unfold scan?
  rw [if_neg (by simp [halpha]), if_neg (by simp [hdigit])]
  split
  · exact hmark []
  · rename_i d s
    rw [if_neg, hmark]
    rintro ⟨rfl, hd⟩
    rw [h rfl d rfl] at hd
    cases hd

/-- A literal is read up to its end. -/
theorem lex_of_form {negative : Bool} {numer : List Char} {denom? : Option (List Char)}
    {number : String} (hform : Literal.Form negative numer denom? number)
    (h : Ends (fun c => c.isDigit || c = '/') rest) :
    lex (number.toList ++ rest) = (lex rest).map (.number number :: ·) := by
  obtain ⟨hne, hdigits⟩ := Literal.isDigits_iff.mp hform.numer_digits
  obtain ⟨c, more, rfl⟩ := List.exists_cons_of_ne_nil hne
  obtain ⟨hc, hmore⟩ := List.forall_mem_cons.mp hdigits
  have htoken : String.ofList (minus negative ++ (c :: more ++ denom?.elim [] ('/' :: ·))) =
      number := by
    rw [← hform.toList_eq, String.ofList_toList]
  rw [hform.toList_eq, List.append_assoc, List.append_assoc, ← htoken]
  -- with a sign the number starts with two characters, without one with its first digit
  cases negative with
  | true =>
    apply lex_cons (s := c :: (more ++ (denom?.elim [] ('/' :: ·) ++ rest))) rfl
    rw [scan?_minus hc, scanNumber_append _ hmore hform.denom_digits h]
    rfl
  | false =>
    apply lex_cons (s := more ++ (denom?.elim [] ('/' :: ·) ++ rest))
      (isSpace_eq_false_of_isDigit hc)
    rw [scan?_of_isDigit hc, scanNumber_append _ hmore hform.denom_digits h]
    rfl

/-- A token that ends before what follows it is read as it is. -/
theorem lex_append (ht : t.Valid) (h : t.Ended rest) :
    lex (t.chars ++ rest) = (lex rest).map (t :: ·) := by
  cases ht with
  | @name c hc =>
    apply lex_cons (s := rest) (isSpace_eq_false_of_isAlpha hc)
    have hend : Ends isWordChar rest := h
    rw [scan?_of_isAlpha hc, scanWord, hend.takeWhile_eq_nil, hend.dropWhile_eq_self]
    rfl
  | @word c body hc hne hbody =>
    have hend : Ends isWordChar rest := h
    rw [Token.chars, String.toList_ofList]
    apply lex_cons (s := body ++ rest) (isSpace_eq_false_of_isAlpha (isAlpha_of_isLower hc))
    rw [scan?_of_isAlpha (isAlpha_of_isLower hc), scanWord, hend.takeWhile_append hbody,
      hend.dropWhile_append hbody]
    rw [if_neg (by simpa using hne), if_pos hc]
  | number r => exact lex_of_form (Literal.form_write r) h
  | @mark c hc =>
    exact lex_cons (isSpace_eq_false_of_mem_marks hc) (scan?_mark hc h)

/-! ## Layouts -/

theorem Blank.nil : Blank [] := by simp [Blank]

theorem Blank.append {a b : List Char} (ha : Blank a) (hb : Blank b) : Blank (a ++ b) := by
  intro c hc
  obtain hc | hc := List.mem_append.mp hc
  · exact ha c hc
  · exact hb c hc

theorem Spaced.blanks (h : Spaced tokens text) {blanks : List Char} (hblanks : Blank blanks) :
    Spaced tokens (blanks ++ text) := by
  cases h with
  | nil h => exact .nil (hblanks.append h)
  | cons h t hrest =>
    rw [← List.append_assoc, ← List.append_assoc]
    exact .cons (hblanks.append h) t hrest

theorem Spaced.append_blanks (h : Spaced tokens text) {blanks : List Char}
    (hblanks : Blank blanks) : Spaced tokens (text ++ blanks) := by
  induction h with
  | nil h => exact .nil (h.append hblanks)
  | cons h t hrest ih =>
    rw [List.append_assoc]
    exact .cons h t ih

/-- A token directly before others. -/
theorem Spaced.cons_chars (t : Token) (h : Spaced tokens text) :
    Spaced (t :: tokens) (t.chars ++ text) :=
  .cons .nil t h

namespace Readable

theorem nil : Readable [] := ⟨by simp, .nil⟩

theorem single (h : t.Valid) : Readable [t] := ⟨by simpa using h, .singleton t⟩

/-- A mark that is no minus sign may stand between any tokens. -/
theorem append_mark {front back : List Token} (hfront : Readable front) (hc : c ∈ marks ∧ c ≠ '-')
    (hback : Readable back) : Readable (front ++ .mark c :: back) := by
  constructor
  · intro t ht
    rw [List.mem_append, List.mem_cons] at ht
    obtain ht | rfl | ht := ht
    · exact hfront.valid t ht
    · exact .mark hc.1
    · exact hback.valid t ht
  · rw [List.isChain_append, List.isChain_cons]
    refine ⟨hfront.chain, ⟨fun u _ => .after_mark hc.2 u, hback.chain⟩, fun t _ u hu => ?_⟩
    rw [List.head?_cons, Option.mem_some] at hu
    exact hu ▸ .before_mark t c

/-- Tokens between two brackets. -/
theorem bracketed {l r : Char} (h : Readable tokens) (hl : l ∈ marks ∧ l ≠ '-')
    (hr : r ∈ marks ∧ r ≠ '-') : Readable (.mark l :: (tokens ++ [.mark r])) :=
  nil.append_mark hl (h.append_mark hr nil)

end Readable

/-! ## The tokens of a layout -/

theorem Spaced.ended (h : Spaced tokens text) (hvalid : ∀ u ∈ tokens, u.Valid)
    (hchain : ∀ u ∈ tokens.head?, Separable t u) : t.Ended text := by
  cases h with
  | nil hblanks =>
    cases text with
    | nil => exact t.ended_nil
    | cons c blanks =>
      exact t.ended_cons (endsTokens_of_isSpace (hblanks c List.mem_cons_self)) blanks
  | @cons blanks rest tokens hblanks u hrest =>
    cases blanks with
    | nil => exact (hchain u rfl).ended (hvalid u List.mem_cons_self) rest
    | cons c blanks => exact t.ended_cons (endsTokens_of_isSpace (hblanks c List.mem_cons_self)) _

/-- **The tokens of a layout are the tokens that were laid out.** -/
theorem lex_of_spaced (h : Spaced tokens text) (hread : Readable tokens) :
    lex text = some tokens := by
  obtain ⟨hvalid, hchain⟩ := hread
  induction h with
  | @nil blanks hblanks =>
    rw [← List.append_nil blanks, lex_blanks hblanks, lex]
  | @cons blanks rest tokens hblanks t hrest ih =>
    obtain ⟨ht, htokens⟩ := List.forall_mem_cons.mp hvalid
    obtain ⟨hhead, htail⟩ := List.isChain_cons.mp hchain
    rw [List.append_assoc, lex_blanks hblanks, lex_append ht (hrest.ended htokens hhead),
      ih htokens htail]
    rfl

end ExactLinear.Command
