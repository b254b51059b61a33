import ExactLinear.Json.Token

/-!
# JSON documents as they are written

A `Tree` has the structure of a document and leaves its numbers and strings as written; the members
of an object stand in their order, with repetitions. `Tree.ofTokens?` builds it in one pass over the
tokens with a stack of unfinished containers.
-/

namespace ExactLinear.Json

/-- A document as it is written. -/
inductive Tree where
  | null
  | bool (b : Bool)
  | number (n : NumberLiteral)
  | string (pieces : List Piece)
  | array (items : List Tree)
  | object (members : List (List Piece × Tree))
deriving Repr, Inhabited

namespace Tree

/-- A container that has been opened and not closed. What it holds so far stands in reverse
order. -/
inductive Frame where
  | array (items : List Tree)
  /-- An object that waits for the value of its member `key`. -/
  | object (members : List (List Piece × Tree)) (key : List Piece)
deriving Repr

/-- What may come next. -/
inductive Expectation where
  /-- A value. -/
  | value
  /-- The first item of an array, or its end. -/
  | firstItem
  /-- The first name in an object, or its end. -/
  | firstKey
  /-- The next name in an object that has these members, in reverse order. -/
  | key (members : List (List Piece × Tree))
  /-- The colon after a name. -/
  | colon (members : List (List Piece × Tree)) (key : List Piece)
  /-- What follows this value. -/
  | completed (t : Tree)
deriving Repr

/-- A point between two tokens of a document. -/
structure State where
  frames : List Frame
  expectation : Expectation
deriving Repr

/-- The state before the first token. -/
def State.start : State := ⟨[], .value⟩

/-- Begins a value with its first token. -/
def beginValue (frames : List Frame) : Token → Option State
  | .null => some ⟨frames, .completed .null⟩
  | .bool b => some ⟨frames, .completed (.bool b)⟩
  | .number n => some ⟨frames, .completed (.number n)⟩
  | .string pieces => some ⟨frames, .completed (.string pieces)⟩
  | .openBracket => some ⟨.array [] :: frames, .firstItem⟩
  | .openBrace => some ⟨frames, .firstKey⟩
  | _ => none

/-- Goes on after a completed value: to the next item or member, or out of its container. -/
def continueAfter (t : Tree) : List Frame → Token → Option State
  | .array items :: frames, .comma => some ⟨.array (t :: items) :: frames, .value⟩
  | .array items :: frames, .closeBracket => some ⟨frames, .completed (.array (t :: items).reverse)⟩
  | .object members key :: frames, .comma => some ⟨frames, .key ((key, t) :: members)⟩
  | .object members key :: frames, .closeBrace =>
    some ⟨frames, .completed (.object ((key, t) :: members).reverse)⟩
  | _, _ => none

/-- Reads one token. -/
def step (s : State) (token : Token) : Option State :=
  match s.expectation, token with
  | .value, token => beginValue s.frames token
  | .firstItem, .closeBracket =>
    match s.frames with
    | .array items :: frames => some ⟨frames, .completed (.array items.reverse)⟩
    | _ => none
  | .firstItem, token => beginValue s.frames token
  | .firstKey, .closeBrace => some ⟨s.frames, .completed (.object [])⟩
  | .firstKey, .string key => some ⟨s.frames, .colon [] key⟩
  | .key members, .string key => some ⟨s.frames, .colon members key⟩
  | .colon members key, .colon => some ⟨.object members key :: s.frames, .value⟩
  | .completed t, token => continueAfter t s.frames token
  | _, _ => none

/-- The document that ends in a state. -/
def State.result? (s : State) : Option Tree :=
  match s.frames, s.expectation with
  | [], .completed t => some t
  | _, _ => none

/-- The document with the given tokens. -/
def ofTokens? (tokens : List Token) : Option Tree := do
  (← tokens.foldlM step State.start).result?

/-- The document with the given text. -/
def ofText? (text : String) : Option Tree := do
  ofTokens? (← lex text.toList)

end Tree

end ExactLinear.Json
