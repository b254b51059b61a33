import ExactLinear.Json.Number
import ExactLinear.Json.Tree

/-!
# Reading JSON values

A document has a value if its numbers are finite, if the 16-bit units of its strings form
characters, and if its containers are not nested too deeply. The parts of a document that nobody
asks for need no value, which is why documents and values are apart.
-/

namespace ExactLinear.Json

/-- The unit opens a pair of units. -/
def isHighUnit (n : Nat) : Bool := 0xD800 ≤ n && n ≤ 0xDBFF

/-- The unit closes a pair of units. -/
def isLowUnit (n : Nat) : Bool := 0xDC00 ≤ n && n ≤ 0xDFFF

/-- The character that a pair of units encodes. -/
def pairedUnits (high low : Nat) : Char :=
  Char.ofNat (0x10000 + (high - 0xD800) * 0x400 + (low - 0xDC00))

/-- The characters of a string, where `high` is a unit that opened a pair. -/
def decodePieces (high : Option Nat) : List Piece → Option (List Char)
  | [] => if high.isNone then some [] else none
  | .plain c :: pieces =>
    if high.isNone then (decodePieces none pieces).map (c :: ·) else none
  | .unit n :: pieces =>
    match high with
    | some h => if isLowUnit n then (decodePieces none pieces).map (pairedUnits h n :: ·) else none
    | none =>
      if isHighUnit n then decodePieces (some n) pieces
      else if isLowUnit n then none
      else (decodePieces none pieces).map (Char.ofNat n :: ·)

/-- The text of a string, if its units form characters. -/
def pieceText? (pieces : List Piece) : Option String := (decodePieces none pieces).map String.ofList

/-- The greatest number of containers around a value, itself included. -/
def greatestDepth : Nat := 127

mutual

/-- The value of a document with at most `depth` nested containers. -/
def Tree.value? (depth : Nat) : Tree → Option Json
  | .null => some .null
  | .bool b => some (.bool b)
  | .number n => n.value?
  | .string pieces => (pieceText? pieces).map .string
  | .array items =>
    match depth with
    | 0 => none
    | depth + 1 => (itemValues? depth items).map .array
  | .object members =>
    match depth with
    | 0 => none
    | depth + 1 => (memberValues? depth members).map ofMembers

/-- The values of the items of an array. -/
def itemValues? (depth : Nat) : List Tree → Option (List Json)
  | [] => some []
  | t :: items => do
    let v ← t.value? depth
    return v :: (← itemValues? depth items)

/-- The names and values of the members of an object. -/
def memberValues? (depth : Nat) : List (List Piece × Tree) → Option (List (String × Json))
  | [] => some []
  | (key, t) :: members => do
    let name ← pieceText? key
    let v ← t.value? depth
    return (name, v) :: (← memberValues? depth members)

end

/-- The value of a text, if it is a document that has one. -/
def read? (text : String) : Option Json := (Tree.ofText? text).bind (Tree.value? greatestDepth)

end ExactLinear.Json
