import ExactLinear.Command.Statement
import ExactLinear.Command.Token

/-!
# Phrases

A `Phrase` is a statement as it is written: its numbers and function names are texts, and the rows
of a matrix may differ in length. `Phrase.ofTokens?` is the grammar of the language;
`Phrase.toStatement` gives a phrase its meaning or says why it has none.
-/

namespace ExactLinear

/-- Why a text is no program. -/
inductive ProgramError where
  /-- The text does not follow the grammar. -/
  | ungrammatical
  /-- There is no function with this name. -/
  | unknownFunction (name : String)
  /-- Some rows of a matrix have a bar and others have none. -/
  | mixedBars
  | linear (e : LinearError)
deriving DecidableEq, Repr

namespace Command

/-- A row of a matrix as it is written, with or without a bar before its last number. -/
structure WrittenRow where
  numbers : List String
  barred : Bool
deriving DecidableEq, Repr

/-- Something to compute, as it is written. -/
inductive Clause where
  | binary (op : BinaryOp) (left right : Char)
  | scaled (factor : String) (name : Char)
  | call (function : String) (args : List Char)
  | show (name : Char)
deriving DecidableEq, Repr

/-- A statement as it is written. -/
inductive Phrase where
  | list
  | matrix (name : Char) (rows : List WrittenRow)
  | vector (name : Char) (numbers : List String)
  | bind (name : Char) (clause : Clause)
  | run (clause : Clause)
deriving DecidableEq, Repr

/-! ## The grammar -/

/-- Names with commas between them, up to a closing parenthesis that ends the phrase. -/
def names? : List Token → Option (List Char)
  | [.name a, .mark ')'] => some [a]
  | .name a :: .mark ',' :: tokens => (names? tokens).map (a :: ·)
  | _ => none

/-- Numbers with commas between them, up to a closing parenthesis that ends the phrase. -/
def numbers? : List Token → Option (List String)
  | [.number n, .mark ')'] => some [n]
  | .number n :: .mark ',' :: tokens => (numbers? tokens).map (n :: ·)
  | _ => none

/-- Puts a number in front of the first row. -/
def consNumber (n : String) : List WrittenRow → List WrittenRow
  | [] => []
  | row :: rows => { row with numbers := n :: row.numbers } :: rows

/-- The rows of a matrix, from a number of its first row up to the bracket that ends the phrase. -/
def rows? : List Token → Option (List WrittenRow)
  | .number n :: .mark ',' :: tokens => (rows? tokens).map (consNumber n)
  | [.number n, .mark ']', .mark ']'] => some [⟨[n], false⟩]
  | .number n :: .mark ']' :: .mark ',' :: .mark '[' :: tokens =>
    (rows? tokens).map (⟨[n], false⟩ :: ·)
  | [.number n, .mark '|', .number b, .mark ']', .mark ']'] => some [⟨[n, b], true⟩]
  | .number n :: .mark '|' :: .number b :: .mark ']' :: .mark ',' :: .mark '[' :: tokens =>
    (rows? tokens).map (⟨[n, b], true⟩ :: ·)
  | _ => none

/-- Something to compute. -/
def Clause.ofTokens? : List Token → Option Clause
  | [.name a] => some (.show a)
  | [.name a, .mark c, .name b] => (BinaryOp.ofSymbol? c).map (.binary · a b)
  | [.number n, .mark '*', .name a] => some (.scaled n a)
  | .word f :: .mark '(' :: tokens => (names? tokens).map (.call f)
  | _ => none

/-- The word that lists all names. It is no function name at the beginning of a phrase. -/
def listWord : String := "list"

/-- A statement. -/
def Phrase.ofTokens? (tokens : List Token) : Option Phrase :=
  if tokens.head? = some (.word listWord) then
    if tokens.length = 1 then some .list else none
  else
    match tokens with
    | .name a :: .mark '=' :: .mark '[' :: .mark '[' :: tokens => (rows? tokens).map (.matrix a)
    | .name a :: .mark '=' :: .mark '(' :: tokens => (numbers? tokens).map (.vector a)
    | .name a :: .mark '=' :: tokens => (Clause.ofTokens? tokens).map (.bind a)
    | tokens => (Clause.ofTokens? tokens).map .run

/-! ## The meaning -/

/-- The values of numbers. -/
def readNumbers (numbers : List String) : Except LinearError (List Rat) := numbers.mapM Literal.read

/-- The matrix of a literal: all rows agree on the bar, which marks an augmented matrix, and in
length. -/
def readMatrix (rows : List WrittenRow) : Except ProgramError RatMatrix := do
  let values ← (rows.mapM fun row => readNumbers row.numbers).mapError ProgramError.linear
  let augmented := (rows.head?.map (·.barred)).getD false
  if rows.any (·.barred != augmented) then
    throw .mixedBars
  (RatMatrix.ofRows values augmented).mapError .linear

/-- The vector of a literal. -/
def readVector (numbers : List String) : Except ProgramError RatVector :=
  ((readNumbers numbers).bind RatVector.ofList).mapError .linear

/-- The meaning of a clause. -/
def Clause.toOperation : Clause → Except ProgramError Operation
  | .binary op left right => .ok (.binary op left.toString right.toString)
  | .scaled factor name => do
    let k ← (Literal.read factor).mapError ProgramError.linear
    return .scaled k name.toString
  | .call function args =>
    match Builtin.ofName? function with
    | some f => .ok (.call f (args.map Char.toString))
    | none => .error (.unknownFunction function)
  | .show name => .ok (.show name.toString)

/-- The meaning of a phrase. -/
def Phrase.toStatement : Phrase → Except ProgramError Statement
  | .list => .ok .list
  | .matrix name rows => do return .define name.toString (.matrix (← readMatrix rows))
  | .vector name numbers => do return .define name.toString (.vector (← readVector numbers))
  | .bind name clause => do return .bind name.toString (← clause.toOperation)
  | .run clause => do return .run (← clause.toOperation)

end Command

end ExactLinear
