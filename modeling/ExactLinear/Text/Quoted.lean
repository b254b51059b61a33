import ExactLinear.Text.Unprintable

/-!
# Quoted text

A text that is part of a message stands between double quotes. A quote, a backslash and the
characters that have a short name are written with a backslash; a character that cannot be seen is
written as its number in hexadecimal.
-/

namespace ExactLinear.Text

/-- The written form of one character between quotes. -/
def quotedChar (c : Char) : List Char :=
  match c with
  | '\x00' => ['\\', '0']
  | '\t' => ['\\', 't']
  | '\n' => ['\\', 'n']
  | '\r' => ['\\', 'r']
  | '"' => ['\\', '"']
  | '\\' => ['\\', '\\']
  | c =>
    if isUnprintable c then
      ['\\', 'u', '\x7b'] ++ Nat.toDigits 16 c.toNat ++ ['\x7d']
    else
      [c]

/-- A text between double quotes. -/
def quoted (s : String) : String :=
  "\"" ++ String.ofList (s.toList.flatMap quotedChar) ++ "\""

end ExactLinear.Text
