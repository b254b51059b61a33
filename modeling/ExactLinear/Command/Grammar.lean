import ExactLinear.Command.Peg
import ExactLinear.Command.Token

/-!
# The rules of the grammar

The command language as parsing expressions. Between the parts of a rule blanks and comments may
stand (`skip`), except in the rules for single words and numbers, whose parts touch. A comment ends
before its line does, and a line break is no blank, so the end of a line can only stand where a rule
names it: between statements.

`readByGrammar` reads a program by these rules: the whole text is matched first, and the statements
are made from its parse tree. `Command.readProgram` reads the same programs from the pieces of a
text and is the reader that runs.
-/

namespace ExactLinear.Command

namespace Grammar

/-! ## Blanks and comments -/

/-- The end of a line. -/
def newline : Peg := .choice (.text ['\n']) (.choice (.text ['\r', '\n']) (.text ['\r']))

def whitespace : Peg := .choice (.text [' ']) (.text ['\t'])

/-- A comment, up to the end of its line. -/
def comment : Peg := .seq (.text ['#']) (.star (.seq (.absent newline) (.char fun _ => true)))

/-- What may stand between the parts of a rule. -/
def skip : Peg := .seq (.star whitespace) (.star (.seq comment (.star whitespace)))

/-- The parts one after another, with blanks and comments between them. -/
def parts : List Peg → Peg
  | [] => .empty
  | [e] => e
  | e :: es => .seq e (.seq skip (parts es))

/-- As often as the expression matches, with blanks and comments between. -/
def many (e : Peg) : Peg := .opt (.seq e (.star (.seq skip e)))

/-- The first of the expressions that matches. -/
def firstOf : List Peg → Peg
  | [] => .absent .empty
  | [e] => e
  | e :: es => .choice e (firstOf es)

/-- A single mark. -/
def mark (c : Char) : Peg := .text [c]

/-! ## Words and numbers -/

/-- The end of a word. -/
def wordEnd : Peg := .absent (.char isWordChar)

def list : Peg := .node .list (.seq (.text ['l', 'i', 's', 't']) wordEnd)

/-- A letter that stands alone. -/
def name : Peg := .node .name (.seq (.char Char.isAlpha) wordEnd)

/-- A word of two characters or more. -/
def function : Peg :=
  .node .function (.seq (.char Char.isLower) (.seq (.char isWordChar) (.star (.char isWordChar))))

def numeral : Peg := .seq (.char Char.isDigit) (.star (.char Char.isDigit))

def number : Peg :=
  .node .number (.seq (.opt (.text ['-'])) (.seq numeral (.opt (.seq (.text ['/']) numeral))))

/-! ## Clauses -/

def call : Peg :=
  .node .call (parts [function, mark '(', name, many (parts [mark ',', name]), mark ')'])

def operator : Peg := .node .operator (firstOf [mark '+', mark '-', mark '*', mark '.'])

def binary : Peg := .node .binary (parts [name, operator, name])

def scaled : Peg := .node .scaled (parts [number, mark '*', name])

/-- Something to compute. -/
def clause : Peg := firstOf [call, binary, scaled, name]

/-! ## Literals -/

def bar : Peg := .node .bar (mark '|')

def matrixRow : Peg :=
  .node .matrixRow (parts [mark '[', number, many (parts [mark ',', number]),
    .opt (parts [bar, number]), mark ']'])

def matrixLiteral : Peg :=
  .node .matrixLiteral
    (parts [mark '[', matrixRow, many (parts [mark ',', matrixRow]), mark ']'])

def vectorLiteral : Peg :=
  .node .vectorLiteral (parts [mark '(', number, many (parts [mark ',', number]), mark ')'])

/-! ## Statements and programs -/

def assignment : Peg :=
  .node .assignment (parts [name, mark '=', firstOf [matrixLiteral, vectorLiteral, clause]])

def statement : Peg := firstOf [list, assignment, clause]

def separator : Peg := .choice (mark ';') newline

/-- At least one separator. -/
def separators : Peg := parts [separator, many separator]

/-- A program. The first part stands for the start of the input. -/
def program : Peg :=
  .node .program (parts [.empty, many separator,
    .opt (parts [statement, many (parts [separators, statement])]), many separator,
    .node .endOfInput .finish])

end Grammar

/-- The statements of a text by the rules of the grammar. -/
def readByGrammar (text : String) : Except TreeError (List Statement) :=
  match Grammar.program.parse text.toList with
  | none => .error (.program .ungrammatical)
  | some (trees, _) => programOf trees

end ExactLinear.Command
