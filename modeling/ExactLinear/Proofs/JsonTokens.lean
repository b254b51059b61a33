import ExactLinear.Json.Printer
import ExactLinear.Json.Reader
import ExactLinear.Proofs.Literals

/-!
# The tokens of a JSON text

Each part of a JSON text that is written is cut off again as one token: a mark whatever follows it,
a string up to its closing quote, an integer up to the first character that cannot go on a number.
`Scans` says of a text that it has certain tokens, wherever it stands. The token of a string has the
string as its text (`exists_stringToken`), that of an integer has the integer as its value
(`value?_integerLiteral`).
-/

namespace ExactLinear

theorem Ends.append {p : Char → Bool} {a b : List Char} (ha : Ends p a) (hb : Ends p b) :
    Ends p (a ++ b) := by
  cases a with
  | nil => exact hb
  | cons c a => exact .cons (ha c rfl) _

namespace Json

/-- The character can go on a number. -/
def continuesNumber (c : Char) : Bool := c.isDigit || c = '.' || c = 'e' || c = 'E'

/-- The text has these tokens, whatever follows it that does not go on a number. -/
def Scans (s : List Char) (tokens : List Token) : Prop :=
  ∀ rest, Ends continuesNumber rest → lex (s ++ rest) = (lex rest).map (tokens ++ ·)

variable {a b s rest : List Char} {t : Token} {ts us : List Token} {c : Char}

/-! ## Texts put together -/

theorem lex_blanks {blanks : List Char} (h : ∀ c ∈ blanks, isSpace c = true) (rest : List Char) :
    lex (blanks ++ rest) = lex rest := by
  induction blanks with
  | nil => rfl
  | cons c blanks ih =>
    obtain ⟨hc, hblanks⟩ := List.forall_mem_cons.mp h
    rw [List.cons_append, lex, if_pos hc, ih hblanks]

theorem lex_of_scan? (hc : isSpace c = false) (h : scan? (c :: s) = some (t, rest)) :
    lex (c :: s) = (lex rest).map (t :: ·) := by
  rw [lex, if_neg (by simp [hc])]
  split
  · rename_i hnone
    rw [h] at hnone
    cases hnone
  · rename_i t' rest' hsome
    rw [h] at hsome
    cases hsome
    rfl

theorem map_append_append (o : Option (List Token)) (ts us : List Token) :
    (o.map (us ++ ·)).map (ts ++ ·) = o.map (ts ++ us ++ ·) := by
  cases o <;> simp

namespace Scans

theorem nil : Scans [] [] := by
  intro rest _
  rw [List.nil_append]
  cases lex rest <;> rfl

/-- Behind a text stands another one that does not go on its last number. -/
theorem append (ha : Scans a ts) (hb : Scans b us) (hend : Ends continuesNumber b) :
    Scans (a ++ b) (ts ++ us) := by
  intro rest hrest
  rw [List.append_assoc, ha _ (hend.append hrest), hb rest hrest, map_append_append]

/-- In front of a text stands a token that is complete whatever follows it. -/
theorem prepend (hc : isSpace c = false) (h : ∀ rest, scan? (c :: (s ++ rest)) = some (t, rest))
    (hb : Scans b us) : Scans (c :: s ++ b) (t :: us) := by
  intro rest hrest
  rw [List.cons_append, List.cons_append, List.append_assoc, lex_of_scan? hc (h (b ++ rest)),
    hb rest hrest]
  exact map_append_append (lex rest) [t] us

theorem mark (hc : isSpace c = false) (h : ∀ rest, scan? (c :: rest) = some (t, rest))
    (hb : Scans b us) : Scans (c :: b) (t :: us) :=
  prepend (s := []) hc h hb

theorem blanks {blanks : List Char} (h : ∀ c ∈ blanks, isSpace c = true) (hb : Scans b us) :
    Scans (blanks ++ b) us := by
  intro rest hrest
  rw [List.append_assoc, lex_blanks h, hb rest hrest]

theorem null : Scans "null".toList [.null] := fun _ _ => lex_of_scan? rfl rfl

theorem bool (b : Bool) : Scans (if b then "true" else "false").toList [.bool b] := by
  cases b with
  | true => exact fun _ _ => lex_of_scan? rfl rfl
  | false => exact fun _ _ => lex_of_scan? rfl rfl

end Scans

/-! ## Strings -/

/-- The value of hexadecimal digits, if they are four. -/
def hexDigits? : List Char → Option Nat
  | [a, b, c, d] => hexUnit? a b c d
  | _ => none

/-- The four digits of a control character have its number as their value. -/
theorem hexDigits?_control :
    ∀ n < 32, hexDigits? ((Nat.toDigits 16 n).leftpad 4 '0') = some n := by
  decide +kernel

theorem scanString_unit {hex : List Char} {n : Nat} (h : hexDigits? hex = some n)
    (rest : List Char) : scanString ('\\' :: 'u' :: (hex ++ rest)) =
      (scanString rest).map fun found => (.unit n :: found.1, found.2) := by
  unfold hexDigits? at h
  split at h
  · rename_i a b c d
    show scanString ('\\' :: 'u' :: a :: b :: c :: d :: rest) = _
    rw [scanString, h]
    cases scanString rest <;> rfl
  · cases h

theorem scanString_plain (hquote : c ≠ '"') (hbackslash : c ≠ '\\') (hcontrol : ¬c.toNat < 32)
    (rest : List Char) : scanString (c :: rest) =
      (scanString rest).map fun found => (.plain c :: found.1, found.2) := by
  rw [scanString]
  · rw [if_neg (by simp [hbackslash, hcontrol])]
    cases scanString rest <;> rfl
  all_goals simp [hquote, hbackslash]

/-- A character is written as one piece of a string, and the piece stands for the character. -/
theorem exists_piece (c : Char) : ∃ piece,
    (∀ rest, scanString (escapedChar c ++ rest) =
      (scanString rest).map fun found => (piece :: found.1, found.2)) ∧
    ∀ pieces, decodePieces none (piece :: pieces) = (decodePieces none pieces).map (c :: ·) := by
  unfold escapedChar
  split
  case h_8 =>
    split_ifs with hcontrol
    · -- a control character without a short escape is written as a unit
      refine ⟨.unit c.toNat, scanString_unit (hexDigits?_control _ hcontrol), fun pieces => ?_⟩
      have hhigh : isHighUnit c.toNat = false := by simp [isHighUnit]; omega
      have hlow : isLowUnit c.toNat = false := by simp [isLowUnit]; omega
      rw [decodePieces]
      simp only [hhigh, hlow, Bool.false_eq_true, if_false, Char.ofNat_toNat]
    · rename_i hquote hbackslash _ _ _ _ _
      exact ⟨.plain c, scanString_plain hquote hbackslash hcontrol, fun _ => rfl⟩
  all_goals
    refine ⟨.plain _, fun rest => ?_, fun _ => rfl⟩
    cases hrest : scanString rest <;> simp [scanString, escaped?, hrest]

/-- The pieces of a string stand for its characters. -/
theorem exists_pieces (text : List Char) : ∃ pieces,
    (∀ rest, scanString (text.flatMap escapedChar ++ '"' :: rest) = some (pieces, rest)) ∧
      decodePieces none pieces = some text := by
  induction text with
  | nil => exact ⟨[], fun rest => rfl, rfl⟩
  | cons c text ih =>
    obtain ⟨piece, hscan, hdecode⟩ := exists_piece c
    obtain ⟨pieces, hscans, hdecodes⟩ := ih
    refine ⟨piece :: pieces, fun rest => ?_, ?_⟩
    · rw [List.flatMap_cons, List.append_assoc, hscan, hscans]
      rfl
    · rw [hdecode, hdecodes]
      rfl

/-- A string is one token whatever follows it, and the token has the string as its text. -/
theorem exists_stringToken (text : String) : ∃ pieces,
    (∀ {b us}, Scans b us → Scans ((stringText text).toList ++ b) (.string pieces :: us)) ∧
      pieceText? pieces = some text := by
  obtain ⟨pieces, hscan, hdecode⟩ := exists_pieces text.toList
  have htext : (stringText text).toList = '"' :: (text.toList.flatMap escapedChar ++ ['"']) := by
    simp [stringText]
  refine ⟨pieces, fun hb => ?_, ?_⟩
  · rw [htext]
    refine .prepend rfl (fun rest => ?_) hb
    rw [List.append_assoc, List.singleton_append]
    show (scanString _).map _ = _
    rw [hscan]
    rfl
  · rw [pieceText?, hdecode]
    exact congrArg some String.ofList_toList

/-! ## Integers -/

/-- An integer as it is written. -/
def integerLiteral (n : Int) : NumberLiteral := ⟨n < 0, digits n.natAbs, none, none⟩

theorem scanNumber_digits (negative : Bool) (n : Nat) (h : Ends continuesNumber rest) :
    scanNumber negative (digits n ++ rest) = some (⟨negative, digits n, none, none⟩, rest) := by
  have hend : Ends Char.isDigit rest := fun c hc => by
    have := h c hc
    simp_all [continuesNumber]
  have hdigits : scanDigits (digits n ++ rest) = some (digits n, rest) := by
    rw [scanDigits, hend.takeWhile_append fun c hc => isDigit_of_mem_digits hc,
      hend.dropWhile_append fun c hc => isDigit_of_mem_digits hc]
    obtain ⟨c, more, hcons, -⟩ := exists_digits_eq_cons n
    rw [hcons]
  have hzero : ¬((digits n).head? = some '0' ∧ (digits n).length ≠ 1) := by
    rintro ⟨hhead, hlength⟩
    obtain rfl := eq_zero_of_head?_digits hhead
    exact hlength rfl
  have hfraction : scanFraction rest = some (none, rest) := by
    unfold scanFraction
    split
    · exact absurd (h '.' rfl) (by decide)
    · rfl
  have hexponent : scanExponent rest = some (none, rest) := by
    unfold scanExponent
    split
    · exact absurd (h 'e' rfl) (by decide)
    · exact absurd (h 'E' rfl) (by decide)
    · rfl
  rw [scanNumber, hdigits, Option.bind_some]
  dsimp only
  rw [if_neg hzero, hfraction, Option.bind_some]
  dsimp only
  rw [hexponent]
  rfl

theorem isSpace_eq_false_of_isDigit (hc : c.isDigit = true) : isSpace c = false := by
  simp only [isSpace, Bool.or_eq_false_iff, decide_eq_false_iff_not]
  refine ⟨⟨⟨?_, ?_⟩, ?_⟩, ?_⟩ <;> (rintro rfl; cases hc)

theorem scan?_of_isDigit (hc : c.isDigit = true) (s : List Char) :
    scan? (c :: s) = (scanNumber false (c :: s)).map fun (n, rest) => (.number n, rest) := by
  unfold scan?
  split
  case h_12 => rfl
  all_goals
    rename_i heq
    obtain ⟨rfl, -⟩ := List.cons.inj heq
    cases hc

/-- An integer is one token where nothing follows that goes on a number. -/
theorem Scans.integer (n : Int) : Scans (toString n).toList [.number (integerLiteral n)] := by
  intro rest hrest
  have hscan := scanNumber_digits (n < 0) n.natAbs hrest
  rw [toList_toString_int, List.append_assoc]
  unfold integerLiteral
  cases hn : decide (n < 0) with
  | true =>
    rw [hn] at hscan
    refine lex_of_scan? (s := digits n.natAbs ++ rest) rfl ?_
    show (scanNumber true _).map _ = _
    rw [hscan]
    rfl
  | false =>
    rw [hn] at hscan
    obtain ⟨c, more, hdigits, hc⟩ := exists_digits_eq_cons n.natAbs
    rw [hdigits] at hscan ⊢
    refine lex_of_scan? (s := more ++ rest) (isSpace_eq_false_of_isDigit hc) ?_
    rw [scan?_of_isDigit hc]
    show (scanNumber false (c :: more ++ rest)).map _ = _
    rw [hscan]
    rfl

/-- An integer of 64 bits is read as it is written. -/
theorem value?_integerLiteral {n : Int} (hmin : -Int.ofNat (powerOfTwo 63) ≤ n)
    (hmax : n < Int.ofNat (powerOfTwo 64)) :
    (integerLiteral n).value? = some (.integer n) := by
  rw [Int.ofNat_eq_natCast] at hmin hmax
  have hinteger : (integerLiteral n).integer? = some n := by
    unfold integerLiteral NumberLiteral.integer?
    dsimp only
    rw [ofDigitChars_digits]
    by_cases hn : n < 0
    · rw [if_pos (by simpa using hn), if_pos (by omega)]
      exact congrArg some (show -(n.natAbs : Int) = n by omega)
    · rw [if_neg (by simpa using hn), if_pos (by omega)]
      exact congrArg some (show (n.natAbs : Int) = n by omega)
  rw [NumberLiteral.value?, hinteger]

end Json

end ExactLinear
