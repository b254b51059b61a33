/-!
# Text in a field of fixed width

A field has a width and an alignment. A text that is too short is filled up with spaces; one that is
too long is left as it is, unless a precision cuts it first.
-/

namespace ExactLinear.Text

/-- Where the text stands in its field. -/
inductive Alignment where
  | left
  | right
  | center
deriving DecidableEq, Repr

/-- Fills a text up with spaces on the left. -/
def padLeft (width : Nat) (s : String) : String :=
  String.ofList (s.toList.leftpad width ' ')

/-- Cuts a text to `precision` characters, then places it in a field of `width` characters. In the
centre of a field with an odd number of spaces the larger part of them stands on the right. -/
def inField (alignment : Alignment) (width : Nat) (precision : Option Nat) (s : String) : String :=
  let chars := match precision with
    | some p => s.toList.take p
    | none => s.toList
  let missing := width - chars.length
  let before := match alignment with
    | .left => 0
    | .right => missing
    | .center => missing / 2
  String.ofList (List.replicate before ' ' ++ chars ++ List.replicate (missing - before) ' ')

end ExactLinear.Text
