/-!
# The tokens of JSON

`lex` cuts a text into tokens. It checks their form and nothing else: the digits of a number are
kept as they stand, and the `\u` escapes of a string are kept as 16-bit units, so that a reader
decides which numbers and which units it accepts. `lex` refuses a text with a character that belongs
to no token.
-/

namespace ExactLinear.Json

/-- A number as it is written. -/
structure NumberLiteral where
  negative : Bool
  /-- The digits before the point. -/
  whole : List Char
  /-- The digits after the point, if there is one. -/
  fraction : Option (List Char)
  /-- The sign, true for minus, and the digits of the exponent, if there is one. -/
  exponent : Option (Bool × List Char)
deriving DecidableEq, Repr

/-- A part of a string as it is written. -/
inductive Piece where
  /-- A character that stands for itself or has a short escape. -/
  | plain (c : Char)
  /-- A 16-bit unit, written with four hexadecimal digits. -/
  | unit (n : Nat)
deriving DecidableEq, Repr

/-- A token. -/
inductive Token where
  | openBrace
  | closeBrace
  | openBracket
  | closeBracket
  | colon
  | comma
  | null
  | bool (b : Bool)
  | number (n : NumberLiteral)
  | string (pieces : List Piece)
deriving DecidableEq, Repr

/-- The characters that may stand between tokens. -/
def isSpace (c : Char) : Bool := c = ' ' || c = '\t' || c = '\n' || c = '\r'

/-! ## Strings -/

/-- The value of a hexadecimal digit. -/
def hexDigit? (c : Char) : Option Nat :=
  if c.isDigit then some (c.toNat - '0'.toNat)
  else if 'a' ≤ c ∧ c ≤ 'f' then some (c.toNat - 'a'.toNat + 10)
  else if 'A' ≤ c ∧ c ≤ 'F' then some (c.toNat - 'A'.toNat + 10)
  else none

/-- The value of four hexadecimal digits. -/
def hexUnit? (a b c d : Char) : Option Nat := do
  return (((← hexDigit? a) * 16 + (← hexDigit? b)) * 16 + (← hexDigit? c)) * 16 + (← hexDigit? d)

/-- The character that a letter after a backslash stands for. -/
def escaped? : Char → Option Char
  | '"' => some '"'
  | '\\' => some '\\'
  | '/' => some '/'
  | 'b' => some '\x08'
  | 'f' => some '\x0c'
  | 'n' => some '\n'
  | 'r' => some '\r'
  | 't' => some '\t'
  | _ => none

/-- The pieces of a string up to the closing quote, and what follows it. Control characters must be
escaped. -/
def scanString : List Char → Option (List Piece × List Char)
  | [] => none
  | '"' :: rest => some ([], rest)
  | '\\' :: 'u' :: a :: b :: c :: d :: rest => do
    let unit ← hexUnit? a b c d
    let (pieces, rest) ← scanString rest
    return (.unit unit :: pieces, rest)
  | '\\' :: c :: rest => do
    let c ← escaped? c
    let (pieces, rest) ← scanString rest
    return (.plain c :: pieces, rest)
  | c :: rest =>
    if c = '\\' || c.toNat < 32 then
      none
    else do
      let (pieces, rest) ← scanString rest
      return (.plain c :: pieces, rest)

/-! ## Numbers -/

/-- The digits at the front, of which there must be one, and what follows them. -/
def scanDigits (s : List Char) : Option (List Char × List Char) :=
  match s.takeWhile Char.isDigit with
  | [] => none
  | digits => some (digits, s.dropWhile Char.isDigit)

/-- The digits after a point, if a point is at the front, and what follows them. -/
def scanFraction : List Char → Option (Option (List Char) × List Char)
  | '.' :: s => (scanDigits s).map fun (digits, rest) => (some digits, rest)
  | s => some (none, s)

/-- The sign at the front, true for minus, and what follows it. -/
def scanSign : List Char → Bool × List Char
  | '-' :: s => (true, s)
  | '+' :: s => (false, s)
  | s => (false, s)

/-- The exponent, if its letter is at the front, and what follows it. -/
def scanExponent (s : List Char) : Option (Option (Bool × List Char) × List Char) :=
  match s with
  | 'e' :: t | 'E' :: t =>
    (scanDigits (scanSign t).2).map fun (digits, rest) => (some ((scanSign t).1, digits), rest)
  | s => some (none, s)

/-- The rest of a number after its sign. A zero is the only digit before the point, or not the
first. -/
def scanNumber (negative : Bool) (s : List Char) : Option (NumberLiteral × List Char) :=
  (scanDigits s).bind fun (whole, s) =>
    if whole.head? = some '0' ∧ whole.length ≠ 1 then
      none
    else
      (scanFraction s).bind fun (fraction, s) =>
        (scanExponent s).map fun (exponent, s) => ({ negative, whole, fraction, exponent }, s)

/-! ## Tokens -/

/-- The token at the front of a text, and what follows it. -/
def scan? : List Char → Option (Token × List Char)
  | '\x7b' :: s => some (.openBrace, s)
  | '\x7d' :: s => some (.closeBrace, s)
  | '[' :: s => some (.openBracket, s)
  | ']' :: s => some (.closeBracket, s)
  | ':' :: s => some (.colon, s)
  | ',' :: s => some (.comma, s)
  | 'n' :: 'u' :: 'l' :: 'l' :: s => some (.null, s)
  | 't' :: 'r' :: 'u' :: 'e' :: s => some (.bool true, s)
  | 'f' :: 'a' :: 'l' :: 's' :: 'e' :: s => some (.bool false, s)
  | '"' :: s => (scanString s).map fun (pieces, rest) => (.string pieces, rest)
  | '-' :: s => (scanNumber true s).map fun (n, rest) => (.number n, rest)
  | s => (scanNumber false s).map fun (n, rest) => (.number n, rest)

theorem length_lt_of_scanString {s rest : List Char} {pieces : List Piece}
    (h : scanString s = some (pieces, rest)) : rest.length < s.length := by
  fun_induction scanString s generalizing pieces rest with
  | case1 => simp at h
  | case2 s => simp_all
  | case3 a b c d s ih =>
    simp only [bind, pure, Option.bind_eq_some_iff, Option.some.injEq, Prod.mk.injEq] at h
    obtain ⟨_, _, ⟨_, _⟩, hs, _, rfl⟩ := h
    have := ih hs
    simp only [List.length_cons]
    omega
  | case4 c s _ ih =>
    simp only [bind, pure, Option.bind_eq_some_iff, Option.some.injEq, Prod.mk.injEq] at h
    obtain ⟨_, _, ⟨_, _⟩, hs, _, rfl⟩ := h
    have := ih hs
    simp only [List.length_cons]
    omega
  | case5 => simp at h
  | case6 c s _ _ _ _ ih =>
    simp only [bind, pure, Option.bind_eq_some_iff, Option.some.injEq, Prod.mk.injEq] at h
    obtain ⟨⟨_, _⟩, hs, _, rfl⟩ := h
    have := ih hs
    simp only [List.length_cons]
    omega

theorem length_lt_of_scanDigits {s digits rest : List Char}
    (h : scanDigits s = some (digits, rest)) : rest.length < s.length := by
  unfold scanDigits at h
  split at h
  · simp at h
  · rename_i hne
    obtain ⟨rfl, rfl⟩ : _ ∧ _ := by simpa using h
    have hlen := congrArg List.length (List.takeWhile_append_dropWhile (p := Char.isDigit) (l := s))
    have : (s.takeWhile Char.isDigit).length ≠ 0 := fun h0 => hne (List.length_eq_zero_iff.mp h0)
    rw [List.length_append] at hlen
    omega

theorem length_le_of_scanFraction {s rest : List Char} {fraction : Option (List Char)}
    (h : scanFraction s = some (fraction, rest)) : rest.length ≤ s.length := by
  unfold scanFraction at h
  split at h
  · obtain ⟨⟨_, _⟩, hd, h⟩ := Option.map_eq_some_iff.mp h
    obtain ⟨_, rfl⟩ := Prod.mk.inj h
    have := length_lt_of_scanDigits hd
    simp only [List.length_cons]
    omega
  · simp_all

theorem length_le_of_scanSign (s : List Char) : (scanSign s).2.length ≤ s.length := by
  unfold scanSign
  split <;> simp

theorem length_le_of_scanExponent {s rest : List Char} {exponent : Option (Bool × List Char)}
    (h : scanExponent s = some (exponent, rest)) : rest.length ≤ s.length := by
  unfold scanExponent at h
  split at h
  case h_3 => simp_all
  all_goals
    rename_i t
    obtain ⟨⟨_, _⟩, hd, h⟩ := Option.map_eq_some_iff.mp h
    obtain ⟨_, rfl⟩ := Prod.mk.inj h
    have := length_lt_of_scanDigits hd
    have := length_le_of_scanSign t
    simp only [List.length_cons]
    omega

theorem length_lt_of_scanNumber {negative : Bool} {s rest : List Char} {n : NumberLiteral}
    (h : scanNumber negative s = some (n, rest)) : rest.length < s.length := by
  obtain ⟨⟨_, s₁⟩, h₁, h⟩ := Option.bind_eq_some_iff.mp h
  have := length_lt_of_scanDigits h₁
  dsimp only at h
  split at h
  · simp at h
  · obtain ⟨⟨_, s₂⟩, h₂, h⟩ := Option.bind_eq_some_iff.mp h
    obtain ⟨⟨_, s₃⟩, h₃, h⟩ := Option.map_eq_some_iff.mp h
    obtain ⟨_, rfl⟩ := Prod.mk.inj h
    have := length_le_of_scanFraction h₂
    have := length_le_of_scanExponent h₃
    dsimp only at *
    omega

theorem length_lt_of_scan? {s rest : List Char} {t : Token} (h : scan? s = some (t, rest)) :
    rest.length < s.length := by
  unfold scan? at h
  split at h
  case h_10 =>
    obtain ⟨⟨_, _⟩, hs, h⟩ := Option.map_eq_some_iff.mp h
    obtain ⟨_, rfl⟩ := Prod.mk.inj h
    have := length_lt_of_scanString hs
    simp only [List.length_cons]
    omega
  case h_11 =>
    obtain ⟨⟨_, _⟩, hs, h⟩ := Option.map_eq_some_iff.mp h
    obtain ⟨_, rfl⟩ := Prod.mk.inj h
    have := length_lt_of_scanNumber hs
    simp only [List.length_cons]
    omega
  case h_12 =>
    obtain ⟨⟨_, _⟩, hs, h⟩ := Option.map_eq_some_iff.mp h
    obtain ⟨_, rfl⟩ := Prod.mk.inj h
    exact length_lt_of_scanNumber hs
  all_goals
    obtain ⟨_, rfl⟩ := Prod.mk.inj (Option.some.inj h)
    simp only [List.length_cons]
    omega

/-- The tokens of a text. -/
def lex (s : List Char) : Option (List Token) :=
  match s with
  | [] => some []
  | c :: s =>
    if isSpace c then
      lex s
    else
      match _h : scan? (c :: s) with
      | none => none
      | some (t, rest) => (lex rest).map (t :: ·)
termination_by s.length
decreasing_by
  · simp
  · exact length_lt_of_scan? _h

end ExactLinear.Json
