import ExactLinear.Rational.Basic

/-!
# Rational literals

A rational is written as `n` or as `n/d`, in lowest terms and with the sign in front. Reading is
more liberal in the digits, not in the form: leading zeros and a fraction that can be cancelled are
read, blanks, a plus sign or a second sign are not. A zero denominator has the form of a literal but
no value.
-/

namespace ExactLinear.Literal

/-- At least one digit, and nothing else. -/
def isDigits (s : List Char) : Bool := !s.isEmpty && s.all Char.isDigit

/-- The value of digits, with a sign. -/
def signed (negative : Bool) (digits : List Char) : Int :=
  let n : Int := Nat.ofDigitChars 10 digits 0
  if negative then -n else n

/-- Takes off one minus sign at the front, and tells whether there was one. -/
def splitSign : List Char → Bool × List Char
  | '-' :: s => (true, s)
  | s => (false, s)

/-- Reads a literal. -/
def read (text : String) : Except LinearError Rat :=
  let (negative, unsigned) := splitSign text.toList
  let numer := unsigned.takeWhile (· != '/')
  match unsigned.dropWhile (· != '/') with
  | [] =>
    if isDigits numer then ratio (signed negative numer) 1 else .error (.malformedLiteral text)
  | _ :: denom =>
    if isDigits numer && isDigits denom then
      ratio (signed negative numer) (signed false denom)
    else
      .error (.malformedLiteral text)

/-- Writes a rational in lowest terms. -/
def write (r : Rat) : String :=
  if r.den = 1 then toString r.num else toString r.num ++ "/" ++ toString r.den

/-- Writes a rational as a factor: in parentheses unless it is an integer. -/
def writeFactor (r : Rat) : String :=
  if r.den = 1 then write r else "(" ++ write r ++ ")"

end ExactLinear.Literal
