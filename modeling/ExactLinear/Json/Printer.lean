import ExactLinear.Binary64.Decimal
import ExactLinear.Json.Value

/-!
# Writing JSON values

`compact` writes a value on one line without blanks; `pretty` writes each item and each member on a
line of its own, indented by two spaces for each container around it. An empty container has no
lines.
-/

namespace ExactLinear.Json

/-- The written form of a character in a string. -/
def escapedChar (c : Char) : List Char :=
  match c with
  | '"' => ['\\', '"']
  | '\\' => ['\\', '\\']
  | '\x08' => ['\\', 'b']
  | '\x0c' => ['\\', 'f']
  | '\n' => ['\\', 'n']
  | '\r' => ['\\', 'r']
  | '\t' => ['\\', 't']
  | c =>
    if c.toNat < 32 then
      ['\\', 'u'] ++ (Nat.toDigits 16 c.toNat).leftpad 4 '0'
    else
      [c]

/-- A string between quotes. -/
def stringText (s : String) : String :=
  "\"" ++ String.ofList (s.toList.flatMap escapedChar) ++ "\""

/-- Where the items of a container stand: all on one line, or each on a line of its own. -/
inductive Layout where
  | compact
  /-- On lines, with this many containers around the current one. -/
  | lines (depth : Nat)

namespace Layout

/-- The layout one container further in. -/
def inner : Layout → Layout
  | .compact => .compact
  | .lines depth => .lines (depth + 1)

/-- What stands before an item. -/
def lineBreak : Layout → String
  | .compact => ""
  | .lines depth => "\n" ++ String.ofList (List.replicate (2 * depth) ' ')

/-- What stands between the name and the value of a member. -/
def colon : Layout → String
  | .compact => ":"
  | .lines _ => ": "

/-- The items of a container between its brackets. -/
def enclose (layout : Layout) (opening closing : String) (items : List String) : String :=
  if items.isEmpty then
    opening ++ closing
  else
    opening ++ layout.inner.lineBreak ++ ("," ++ layout.inner.lineBreak).intercalate items
      ++ layout.lineBreak ++ closing

end Layout

mutual

/-- The text of a value in a layout. -/
def text (layout : Layout) : Json → String
  | .null => "null"
  | .bool b => if b then "true" else "false"
  | .integer n => toString n
  | .double x => x.text
  | .string s => stringText s
  | .array items => layout.enclose "[" "]" (itemTexts layout.inner items)
  | .object members => layout.enclose "\x7b" "\x7d" (memberTexts layout.inner members)

/-- The texts of items. -/
def itemTexts (layout : Layout) : List Json → List String
  | [] => []
  | item :: items => text layout item :: itemTexts layout items

/-- The texts of members. -/
def memberTexts (layout : Layout) : List (String × Json) → List String
  | [] => []
  | (name, value) :: members =>
    (stringText name ++ layout.colon ++ text layout value) :: memberTexts layout members

end

/-- A value on one line. -/
def compact (j : Json) : String := text .compact j

/-- A value on as many lines as it has items and members. -/
def pretty (j : Json) : String := text (.lines 0) j

end ExactLinear.Json
