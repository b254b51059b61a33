import ExactLinear.Proofs.ExpressionMatches
import ExactLinear.Proofs.ParseTrees
import ExactLinear.Proofs.SpacedTokens

/-!
# Words, numbers and marks of the grammar

The rules for single words and numbers match exactly the tokens that `scan?` finds. `Scans` says
what stands at the front of a text for each kind of token, and there is one lemma for each rule
(`parse_name_eq_some_iff` and those below it). Only an operator is different: a minus sign directly
before a digit is an operator of the grammar and belongs to a number for the scanner.
-/

namespace ExactLinear.Command

open Peg Grammar

variable {c : Char} {p : Char → Bool} {s mid rest : List Char} {t : Token} {trees : List Tree}

/-! ## What the scanner finds -/

/-- The token at the front of a text, and what follows it. -/
inductive Scans : List Char → Token → List Char → Prop where
  | name {c : Char} {rest : List Char} (hc : c.isAlpha = true) (h : Ends isWordChar rest) :
    Scans (c :: rest) (.name c) rest
  | word {c : Char} {body rest : List Char} (hc : c.isLower = true) (hne : body ≠ [])
      (hbody : ∀ d ∈ body, isWordChar d = true) (h : Ends isWordChar rest) :
    Scans (c :: (body ++ rest)) (.word (String.ofList (c :: body))) rest
  | number {d : Char} {more rest : List Char} {n : String} (negative : Bool)
      (hd : d.isDigit = true) (h : scanNumber (minus negative ++ [d]) more = (.number n, rest)) :
    Scans (minus negative ++ d :: more) (.number n) rest
  | mark {c : Char} {rest : List Char} (hc : c ∈ marks) (h : c = '-' → Ends Char.isDigit rest) :
    Scans (c :: rest) (.mark c) rest

theorem ends_of_takeWhile_eq_nil (h : s.takeWhile p = []) : Ends p s := by
  have hends := ends_dropWhile p s
  rwa [show s.dropWhile p = s by simpa [h] using s.takeWhile_append_dropWhile (p := p)] at hends

theorem scans_of_scan? (h : scan? c s = some (t, rest)) : Scans (c :: s) t rest := by
  unfold scan? at h
  split_ifs at h with halpha hdigit
  · simp only [scanWord] at h
    split_ifs at h with hbody hlower
    · cases h
      have hends := ends_of_takeWhile_eq_nil (List.isEmpty_iff.mp hbody)
      rw [hends.dropWhile_eq_self]
      exact .name halpha hends
    · cases h
      have hword := Scans.word hlower (by simpa using hbody)
        (List.all_eq_true.mp List.all_takeWhile) (ends_dropWhile isWordChar s)
      rwa [List.takeWhile_append_dropWhile] at hword
  · cases h
    exact .number false hdigit rfl
  · have hmark : ∀ s, scanMark c s = some (t, rest) → c ∈ marks ∧ t = .mark c ∧ rest = s := by
      intro s hs
      unfold scanMark at hs
      split_ifs at hs with hc
      cases hs
      exact ⟨hc, rfl, rfl⟩
    split at h
    · obtain ⟨hc, rfl, rfl⟩ := hmark _ h
      exact .mark hc fun _ => .nil _
    · rename_i d more
      split_ifs at h with hminus
      · obtain ⟨rfl, hd⟩ := hminus
        cases h
        exact .number true hd rfl
      · obtain ⟨hc, rfl, rfl⟩ := hmark _ h
        exact .mark hc fun hc => .cons (by simpa [hc] using hminus) more

theorem Scans.scan? (h : Scans s t rest) :
    ∃ c more, s = c :: more ∧ scan? c more = some (t, rest) := by
  cases h with
  | name hc h =>
    refine ⟨_, _, rfl, ?_⟩
    rw [scan?_of_isAlpha hc, scanWord, h.takeWhile_eq_nil, h.dropWhile_eq_self]
    rfl
  | word hc hne hbody h =>
    refine ⟨_, _, rfl, ?_⟩
    rw [scan?_of_isAlpha (isAlpha_of_isLower hc), scanWord, h.takeWhile_append hbody,
      h.dropWhile_append hbody]
    rw [if_neg (by simpa using hne), if_pos hc]
  | number negative hd h =>
    cases negative with
    | false => exact ⟨_, _, rfl, by rw [scan?_of_isDigit hd]; exact congrArg some h⟩
    | true => exact ⟨_, _, rfl, (scan?_minus hd _).trans (congrArg some h)⟩
  | mark hc h => exact ⟨_, _, rfl, scan?_mark hc h⟩

theorem Scans.unique {t' : Token} {rest' : List Char} (h : Scans s t rest) (h' : Scans s t' rest') :
    t = t' ∧ rest = rest' := by
  obtain ⟨c, more, rfl, hscan⟩ := h.scan?
  obtain ⟨_, _, ⟨⟩, hscan'⟩ := h'.scan?
  rw [hscan] at hscan'
  cases hscan'
  exact ⟨rfl, rfl⟩

theorem Scans.eq_cons {a : Char} (h : Scans s (.name a) rest) :
    s = a :: rest ∧ a.isAlpha = true := by
  cases h with
  | name ha => exact ⟨rfl, ha⟩

theorem Scans.eq_cons_of_mark (h : Scans s (.mark c) rest) : s = c :: rest := by
  cases h with
  | mark => rfl

/-! ## Words -/

/-- A repetition of single characters ends where they do. -/
theorem parse_star_char_eq_some_iff : (star (char p)).parse s = some (trees, rest) ↔
    ∃ body, s = body ++ rest ∧ (∀ d ∈ body, p d = true) ∧ Ends p rest ∧ trees = [] := by
  rw [parse_star_of_class fun _ => rfl]
  constructor
  · intro h
    cases h
    exact ⟨s.takeWhile p, List.takeWhile_append_dropWhile.symm,
      List.all_eq_true.mp List.all_takeWhile, ends_dropWhile p s, rfl⟩
  · rintro ⟨body, rfl, hbody, hends, rfl⟩
    rw [hends.dropWhile_append hbody]

theorem parse_wordEnd_eq_some_iff : wordEnd.parse s = some (trees, rest) ↔
    Ends isWordChar s ∧ trees = [] ∧ rest = s := by
  cases s with
  | nil => simp [wordEnd, Ends.nil, eq_comm]
  | cons c s =>
    simp only [wordEnd, parse_absent, parse_char_cons, Ends, List.head?_cons, Option.mem_some_iff]
    by_cases hc : isWordChar c = true
    · simp [hc]
    · simp only [hc]
      grind

/-- A name of the grammar is a name token. -/
theorem parse_name_eq_some_iff : name.parse s = some (trees, rest) ↔
    ∃ a, Scans s (.name a) rest ∧ trees = [nameTree a] := by
  have hparse : ∀ trees rest, (seq (char Char.isAlpha) wordEnd).parse s = some (trees, rest) ↔
      ∃ t, s = t ++ rest ∧ (∃ c, t = [c] ∧ c.isAlpha = true ∧ Ends isWordChar rest) ∧
        trees = [] := by
    intro trees rest
    simp only [parse_seq_eq_some_iff, parse_char_eq_some_iff, parse_wordEnd_eq_some_iff]
    grind
  refine (parse_leaf_eq_some_iff hparse).trans ⟨?_, ?_⟩
  · rintro ⟨_, rfl, ⟨c, rfl, hc, hends⟩, rfl⟩
    exact ⟨c, .name hc hends, rfl⟩
  · rintro ⟨a, h, rfl⟩
    cases h with
    | name hc hends => exact ⟨[a], rfl, ⟨a, rfl, hc, hends⟩, rfl⟩

/-- A function name of the grammar is a word token. -/
theorem parse_function_eq_some_iff : function.parse s = some (trees, rest) ↔
    ∃ f, Scans s (.word f) rest ∧ trees = [.leaf .function f] := by
  have hparse : ∀ trees rest,
      (seq (char Char.isLower) (seq (char isWordChar) (star (char isWordChar)))).parse s =
          some (trees, rest) ↔
        ∃ t, s = t ++ rest ∧ (∃ c body, t = c :: body ∧ c.isLower = true ∧ body ≠ [] ∧
          (∀ d ∈ body, isWordChar d = true) ∧ Ends isWordChar rest) ∧ trees = [] := by
    intro trees rest
    simp only [parse_seq_eq_some_iff, parse_char_eq_some_iff, parse_star_char_eq_some_iff]
    constructor
    · rintro ⟨_, _, _, ⟨c, rfl, hc, rfl⟩,
        ⟨_, _, _, ⟨d, rfl, hd, rfl⟩, ⟨body, rfl, hbody, hends, rfl⟩, rfl⟩, rfl⟩
      exact ⟨c :: d :: body, rfl, ⟨c, d :: body, rfl, hc, List.cons_ne_nil d body,
        List.forall_mem_cons.mpr ⟨hd, hbody⟩, hends⟩, rfl⟩
    · rintro ⟨_, rfl, ⟨c, body, rfl, hc, hne, hbody, hends⟩, rfl⟩
      obtain ⟨d, more, rfl⟩ := List.exists_cons_of_ne_nil hne
      obtain ⟨hd, hmore⟩ := List.forall_mem_cons.mp hbody
      exact ⟨[], _, [], ⟨c, rfl, hc, rfl⟩, ⟨[], _, [], ⟨d, rfl, hd, rfl⟩,
        ⟨more, rfl, hmore, hends, rfl⟩, rfl⟩, rfl⟩
  refine (parse_leaf_eq_some_iff hparse).trans ⟨?_, ?_⟩
  · rintro ⟨_, rfl, ⟨c, body, rfl, hc, hne, hbody, hends⟩, rfl⟩
    exact ⟨_, .word hc hne hbody hends, rfl⟩
  · rintro ⟨f, h, rfl⟩
    cases h with
    | word hc hne hbody hends => exact ⟨_, rfl, ⟨_, _, rfl, hc, hne, hbody, hends⟩, rfl⟩

/-- The rule for the listing of all names matches the word of that name. -/
theorem parse_list_eq_some_iff : list.parse s = some (trees, rest) ↔
    Scans s (.word listWord) rest ∧ trees = [.leaf .list listWord] := by
  have hparse : ∀ trees rest, (seq (text ['l', 'i', 's', 't']) wordEnd).parse s =
      some (trees, rest) ↔
        ∃ t, s = t ++ rest ∧ (t = ['l', 'i', 's', 't'] ∧ Ends isWordChar rest) ∧ trees = [] := by
    intro trees rest
    simp only [parse_seq_eq_some_iff, parse_text_eq_some_iff, parse_wordEnd_eq_some_iff]
    grind
  refine (parse_leaf_eq_some_iff hparse).trans ⟨?_, ?_⟩
  · rintro ⟨_, rfl, ⟨rfl, hends⟩, rfl⟩
    have hbody : ∀ c ∈ ['i', 's', 't'], isWordChar c = true := by simp [isWordChar]
    exact ⟨.word rfl (List.cons_ne_nil _ _) hbody hends, rfl⟩
  · rintro ⟨h, rfl⟩
    generalize hword : Token.word listWord = t at h
    cases h with
    | word hc hne hbody hends =>
      have hchars := congrArg String.toList (Token.word.inj hword)
      rw [String.toList_ofList] at hchars
      exact ⟨_, congrArg (· ++ rest) hchars.symm, ⟨rfl, hends⟩, rfl⟩
    | _ => cases hword

/-! ## Numbers -/

theorem parse_numeral_eq_some_iff : numeral.parse s = some (trees, rest) ↔
    ∃ d more, s = d :: more ∧ d.isDigit = true ∧ rest = more.dropWhile Char.isDigit ∧
      trees = [] := by
  simp only [numeral, parse_seq_eq_some_iff, parse_char_eq_some_iff,
    parse_star_of_class fun _ => rfl, Option.some.injEq, Prod.mk.injEq]
  grind

/-- The denominator of the grammar is the one that the scanner finds. -/
theorem parse_denominator (s : List Char) :
    (opt (seq (text ['/']) numeral)).parse s = some ([], (scanDenominator s).2) := by
  unfold scanDenominator
  split
  · rename_i d more
    split_ifs with hd
    · have hparse : (seq (text ['/']) numeral).parse ('/' :: d :: more) =
          some ([], more.dropWhile Char.isDigit) :=
        parse_seq_eq_some_iff.mpr ⟨[], d :: more, [], rfl,
          parse_numeral_eq_some_iff.mpr ⟨d, more, rfl, hd, rfl, rfl⟩, rfl⟩
      rw [opt, parse_choice, hparse]
      rfl
    · have hparse : (seq (text ['/']) numeral).parse ('/' :: d :: more) = none := by
        rw [parse_seq, parse_singleton_cons, numeral]
        simp [parse_seq, hd]
      rw [opt, parse_choice, hparse]
      rfl
  · rename_i hne
    have hparse : (seq (text ['/']) numeral).parse s = none := by
      rw [Option.eq_none_iff_forall_ne_some]
      rintro ⟨trees, rest⟩ h
      obtain ⟨_, _, _, hslash, hnumeral, -⟩ := parse_seq_eq_some_iff.mp h
      obtain ⟨rfl, -⟩ := parse_text_eq_some_iff.mp hslash
      obtain ⟨d, more, rfl, -⟩ := parse_numeral_eq_some_iff.mp hnumeral
      exact hne d more rfl
    rw [opt, parse_choice, hparse]
    rfl

theorem scanDenominator_append_rest (s : List Char) :
    (scanDenominator s).1 ++ (scanDenominator s).2 = s := by
  unfold scanDenominator
  split
  · split_ifs
    · simp [List.takeWhile_append_dropWhile]
    · rfl
  · rfl

/-- A sign is taken if there is one. -/
theorem parse_sign_eq_some_iff {d : Char} {more : List Char} (hd : d.isDigit = true) :
    (opt (text ['-'])).parse s = some (trees, d :: more) ↔
      ∃ negative, s = minus negative ++ d :: more ∧ trees = [] := by
  have hne : d ≠ '-' := by
    rintro rfl
    cases hd
  rw [opt, parse_choice, Option.or_eq_some_iff, parse_text_eq_some_iff, parse_empty]
  constructor
  · rintro (⟨rfl, rfl⟩ | ⟨-, h⟩)
    · exact ⟨true, rfl, rfl⟩
    · cases h
      exact ⟨false, rfl, rfl⟩
  · rintro ⟨negative, rfl, rfl⟩
    cases negative with
    | true => exact .inl ⟨rfl, rfl⟩
    | false => exact .inr ⟨(parse_singleton_cons _ _ _).trans (if_neg hne), rfl⟩

theorem scanNumber_eq_iff {start : List Char} {n : String} :
    scanNumber start s = (.number n, rest) ↔
      n = String.ofList (start ++ s.takeWhile Char.isDigit ++
        (scanDenominator (s.dropWhile Char.isDigit)).1) ∧
      rest = (scanDenominator (s.dropWhile Char.isDigit)).2 := by
  show (Token.number _, (scanDenominator (s.dropWhile Char.isDigit)).2) = _ ↔ _
  rw [Prod.mk.injEq, Token.number.injEq]
  exact and_congr eq_comm eq_comm

/-- What a number takes is its text. -/
theorem append_of_scanNumber {start : List Char} {n : String}
    (h : scanNumber start s = (.number n, rest)) : start ++ s = n.toList ++ rest := by
  obtain ⟨rfl, rfl⟩ := scanNumber_eq_iff.mp h
  rw [String.toList_ofList, List.append_assoc, scanDenominator_append_rest, List.append_assoc,
    List.takeWhile_append_dropWhile]

/-- A number of the grammar is a number token. -/
theorem parse_number_eq_some_iff : number.parse s = some (trees, rest) ↔
    ∃ n, Scans s (.number n) rest ∧ trees = [numberTree n] := by
  have hbody : ∀ s trees rest,
      (seq numeral (opt (seq (text ['/']) numeral))).parse s = some (trees, rest) ↔
        ∃ d more, s = d :: more ∧ d.isDigit = true ∧
          rest = (scanDenominator (more.dropWhile Char.isDigit)).2 ∧ trees = [] := by
    intro s trees rest
    simp only [parse_seq_eq_some_iff, parse_numeral_eq_some_iff, parse_denominator,
      Option.some.injEq, Prod.mk.injEq]
    constructor
    · rintro ⟨_, _, _, ⟨d, more, rfl, hd, rfl, rfl⟩, ⟨rfl, rfl⟩, rfl⟩
      exact ⟨d, more, rfl, hd, rfl, rfl⟩
    · rintro ⟨d, more, rfl, hd, rfl, rfl⟩
      exact ⟨[], _, [], ⟨d, more, rfl, hd, rfl, rfl⟩, ⟨rfl, rfl⟩, rfl⟩
  have hparse : ∀ trees rest,
      (seq (opt (text ['-'])) (seq numeral (opt (seq (text ['/']) numeral)))).parse s =
          some (trees, rest) ↔
        ∃ t, s = t ++ rest ∧ (∃ negative d more, s = minus negative ++ d :: more ∧
          d.isDigit = true ∧ scanNumber (minus negative ++ [d]) more =
            (.number (String.ofList t), rest)) ∧ trees = [] := by
    intro trees rest
    simp only [parse_seq_eq_some_iff, hbody]
    constructor
    · rintro ⟨_, _, _, hsign, ⟨d, more, rfl, hd, rfl, rfl⟩, rfl⟩
      obtain ⟨negative, rfl, rfl⟩ := (parse_sign_eq_some_iff hd).mp hsign
      have htext : (minus negative ++ [d]) ++ more = _ := append_of_scanNumber rfl
      rw [String.toList_ofList, List.append_assoc] at htext
      exact ⟨_, htext, ⟨negative, d, more, rfl, hd, rfl⟩, rfl⟩
    · rintro ⟨t, -, ⟨negative, d, more, rfl, hd, hscan⟩, rfl⟩
      obtain ⟨-, rfl⟩ := scanNumber_eq_iff.mp hscan
      exact ⟨[], _, [], (parse_sign_eq_some_iff hd).mpr ⟨negative, rfl, rfl⟩,
        ⟨d, more, rfl, hd, rfl, rfl⟩, rfl⟩
  refine (parse_leaf_eq_some_iff hparse).trans ⟨?_, ?_⟩
  · rintro ⟨t, -, ⟨negative, d, more, rfl, hd, hscan⟩, rfl⟩
    exact ⟨_, .number negative hd hscan, rfl⟩
  · rintro ⟨n, h, rfl⟩
    cases h with
    | number negative hd hscan =>
      have htext := append_of_scanNumber hscan
      rw [List.append_assoc] at htext
      rw [← String.ofList_toList (s := n)] at hscan
      exact ⟨n.toList, htext, ⟨negative, _, _, rfl, hd, hscan⟩, by rw [String.ofList_toList]; rfl⟩

/-! ## Marks -/

theorem parse_mark_eq_some_iff (hc : c ∈ marks) (hne : c ≠ '-') :
    (mark c).parse s = some (trees, rest) ↔ Scans s (.mark c) rest ∧ trees = [] := by
  rw [mark, parse_text_eq_some_iff]
  refine and_congr_left fun _ => ⟨?_, ?_⟩
  · rintro rfl
    exact .mark hc fun h => absurd h hne
  · intro h
    cases h with
    | mark => rfl

/-- One of several marks is a character of that class. -/
theorem parse_firstOf_marks {cs : List Char} (hne : cs ≠ []) (s : List Char) :
    (firstOf (cs.map mark)).parse s = (char (· ∈ cs)).parse s := by
  cases s with
  | nil =>
    induction cs with
    | nil => exact absurd rfl hne
    | cons d cs ih =>
      cases cs with
      | nil => rfl
      | cons e cs => exact ih (List.cons_ne_nil e cs)
  | cons c s =>
    induction cs with
    | nil => exact absurd rfl hne
    | cons d cs ih =>
      cases cs with
      | nil => simp [firstOf, mark]
      | cons e cs =>
        show ((mark d).parse (c :: s)).or ((firstOf ((e :: cs).map mark)).parse (c :: s)) = _
        rw [ih (List.cons_ne_nil e cs), mark, parse_singleton_cons, parse_char_cons,
          parse_char_cons]
        by_cases hc : c = d <;> simp [hc]

theorem exists_ofSymbol?_iff :
    (∃ op, BinaryOp.ofSymbol? c = some op) ↔ c ∈ ['+', '-', '*', '.'] := by
  unfold BinaryOp.ofSymbol?
  split <;> simp_all

theorem mem_marks_of_ofSymbol? {op : BinaryOp} (h : BinaryOp.ofSymbol? c = some op) :
    c ∈ marks := by
  have hmem := exists_ofSymbol?_iff.mp ⟨op, h⟩
  simp only [List.mem_cons, List.not_mem_nil, or_false] at hmem
  obtain rfl | rfl | rfl | rfl := hmem <;> decide

/-- An operator of the grammar is the mark of one, and may be the sign of a number that follows. -/
theorem parse_operator_eq_some_iff : operator.parse s = some (trees, rest) ↔
    ∃ c op, s = c :: rest ∧ BinaryOp.ofSymbol? c = some op ∧
      trees = [.leaf .operator c.toString] := by
  have hparse : ∀ trees rest, (firstOf [mark '+', mark '-', mark '*', mark '.']).parse s =
      some (trees, rest) ↔
        ∃ t, s = t ++ rest ∧ (∃ c op, t = [c] ∧ BinaryOp.ofSymbol? c = some op) ∧ trees = [] := by
    intro trees rest
    have hmarks : (firstOf (['+', '-', '*', '.'].map mark)).parse s = _ :=
      parse_firstOf_marks (List.cons_ne_nil _ _) s
    rw [show firstOf [mark '+', mark '-', mark '*', mark '.'] =
      firstOf (['+', '-', '*', '.'].map mark) from rfl, hmarks, parse_char_eq_some_iff]
    simp only [decide_eq_true_eq, ← exists_ofSymbol?_iff]
    constructor
    · rintro ⟨c, rfl, ⟨op, hop⟩, rfl⟩
      exact ⟨[c], rfl, ⟨c, op, rfl, hop⟩, rfl⟩
    · rintro ⟨_, rfl, ⟨c, op, rfl, hop⟩, rfl⟩
      exact ⟨c, rfl, ⟨op, hop⟩, rfl⟩
  refine (parse_leaf_eq_some_iff hparse).trans ⟨?_, ?_⟩
  · rintro ⟨_, rfl, ⟨c, op, rfl, hop⟩, rfl⟩
    exact ⟨c, op, rfl, hop, rfl⟩
  · rintro ⟨c, op, rfl, hop, rfl⟩
    exact ⟨[c], rfl, ⟨c, op, rfl, hop⟩, rfl⟩

end ExactLinear.Command
