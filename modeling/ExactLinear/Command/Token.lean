/-!
# The tokens of the command language

`lex` cuts a piece of a program, which has no line break, no `;` and no comment, into tokens. Spaces
and tabs may stand between tokens and nowhere inside them. A letter alone is a name; a longer word
must start with a lowercase letter. A minus sign directly before a digit belongs to the number.
-/

namespace ExactLinear.Command

/-- A token. -/
inductive Token where
  /-- A letter that stands alone. -/
  | name (letter : Char)
  /-- A word of two characters or more. -/
  | word (text : String)
  /-- A number as it is written. -/
  | number (text : String)
  /-- A bracket, an operator or another mark. -/
  | mark (c : Char)
deriving DecidableEq, Repr

/-- The characters that may stand between tokens. -/
def isSpace (c : Char) : Bool := c = ' ' || c = '\t'

/-- The characters of a word after the first. -/
def isWordChar (c : Char) : Bool := c.isAlphanum || c = '_'

/-- The marks of the language. -/
def marks : List Char := ['=', '(', ')', '[', ']', ',', '|', '+', '-', '*', '.']

/-- The denominator with its slash, if one is at the front, and what follows it. -/
def scanDenominator : List Char → List Char × List Char
  | '/' :: c :: s =>
    if c.isDigit then
      ('/' :: c :: s.takeWhile Char.isDigit, s.dropWhile Char.isDigit)
    else
      ([], '/' :: c :: s)
  | s => ([], s)

/-- A number that starts with the given characters and goes on with digits, and what follows it. -/
def scanNumber (start s : List Char) : Token × List Char :=
  let (denominator, rest) := scanDenominator (s.dropWhile Char.isDigit)
  (.number (String.ofList (start ++ s.takeWhile Char.isDigit ++ denominator)), rest)

/-- The word that starts with the letter `c`, and what follows it. -/
def scanWord (c : Char) (s : List Char) : Option (Token × List Char) :=
  let body := s.takeWhile isWordChar
  let rest := s.dropWhile isWordChar
  if body.isEmpty then some (.name c, rest)
  else if c.isLower then some (.word (String.ofList (c :: body)), rest)
  else none

/-- The mark `c`, and what follows it. -/
def scanMark (c : Char) (s : List Char) : Option (Token × List Char) :=
  if c ∈ marks then some (.mark c, s) else none

/-- The token that starts with the character `c`, and what follows it. -/
def scan? (c : Char) (s : List Char) : Option (Token × List Char) :=
  if c.isAlpha then
    scanWord c s
  else if c.isDigit then
    some (scanNumber [c] s)
  else
    match s with
    | [] => scanMark c []
    | d :: rest =>
      if c = '-' ∧ d.isDigit then some (scanNumber [c, d] rest) else scanMark c (d :: rest)

theorem length_dropWhile_le (p : Char → Bool) (s : List Char) : (s.dropWhile p).length ≤ s.length :=
  (List.dropWhile_sublist p).length_le

theorem length_le_of_scanDenominator (s : List Char) : (scanDenominator s).2.length ≤ s.length := by
  unfold scanDenominator
  split
  · rename_i c s
    have := length_dropWhile_le Char.isDigit s
    split <;> simp only [List.length_cons] <;> omega
  · simp

theorem length_le_of_scanNumber (start s : List Char) :
    (scanNumber start s).2.length ≤ s.length :=
  Nat.le_trans (length_le_of_scanDenominator _) (length_dropWhile_le Char.isDigit s)

theorem length_le_of_scanWord {c : Char} {s rest : List Char} {t : Token}
    (h : scanWord c s = some (t, rest)) : rest.length ≤ s.length := by
  have := length_dropWhile_le isWordChar s
  simp only [scanWord] at h
  split at h
  · simp_all
  · split at h <;> simp_all

theorem length_le_of_scanMark {c : Char} {s rest : List Char} {t : Token}
    (h : scanMark c s = some (t, rest)) : rest.length ≤ s.length := by
  simp only [scanMark] at h
  split at h <;> simp_all

theorem length_le_of_scan? {c : Char} {s rest : List Char} {t : Token}
    (h : scan? c s = some (t, rest)) : rest.length ≤ s.length := by
  unfold scan? at h
  split at h
  · exact length_le_of_scanWord h
  · split at h
    · have := length_le_of_scanNumber [c] s
      simp_all
    · split at h
      · exact length_le_of_scanMark h
      · rename_i d s
        split at h
        · have := length_le_of_scanNumber [c, d] s
          simp_all only [Option.some.injEq, List.length_cons]
          omega
        · exact length_le_of_scanMark h

/-- The tokens of a piece of a program. -/
def lex (s : List Char) : Option (List Token) :=
  match s with
  | [] => some []
  | c :: s =>
    if isSpace c then
      lex s
    else
      match _h : scan? c s with
      | none => none
      | some (t, rest) => (lex rest).map (t :: ·)
termination_by s.length
decreasing_by
  · simp
  · exact Nat.lt_succ_of_le (length_le_of_scan? _h)

end ExactLinear.Command
