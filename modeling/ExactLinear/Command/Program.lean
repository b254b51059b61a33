import ExactLinear.Command.Phrase

/-!
# Programs

A program is a text of statements. Statements stand on lines of their own or have `;` between them,
and a `#` starts a comment that ends with its line. No token contains any of these marks, so a
program is first cut into pieces, and each piece is blank or is one statement.

A text of which one piece is no phrase is refused as a whole; only then do the phrases get their
meaning, from first to last. The rules of the grammar, which do not cut the text, give the same
(`readByGrammar_eq`).
-/

namespace ExactLinear

namespace Command

/-- The characters that end a line. -/
def isLineBreak (c : Char) : Bool := c = '\n' || c = '\r'

/-- The pieces of a line: its comment is cut off. -/
def linePieces (line : List Char) : List (List Char) :=
  (line.takeWhile (· ≠ '#')).splitOnP (· = ';')

/-- The pieces of a text. -/
def pieces (text : List Char) : List (List Char) := (text.splitOnP isLineBreak).flatMap linePieces

/-- The phrases of a piece, which are none or one. -/
def piecePhrases? (piece : List Char) : Option (List Phrase) :=
  match lex piece with
  | none => none
  | some [] => some []
  | some tokens => (Phrase.ofTokens? tokens).map ([·])

/-- The phrases of a text, if it follows the grammar. -/
def phrases? (text : String) : Option (List Phrase) :=
  ((pieces text.toList).mapM piecePhrases?).map List.flatten

/-- Whether a text follows the grammar. -/
def accepts (text : String) : Bool := (phrases? text).isSome

/-- The statements of a text. -/
def readProgram (text : String) : Except ProgramError (List Statement) :=
  match phrases? text with
  | none => .error .ungrammatical
  | some phrases => phrases.mapM Phrase.toStatement

end Command

end ExactLinear
