import ExactLinear.Store.Basic

/-!
# Statements

The statements of the command language after parsing. Names are texts here: whether a name is a
letter of the right case is found out when the statement is executed.
-/

namespace ExactLinear

/-- The operators between two names. -/
inductive BinaryOp where
  | plus
  | minus
  | times
  | dot
deriving DecidableEq, Repr

/-- The name of an operator in messages. -/
def BinaryOp.title : BinaryOp → String
  | .plus => "Plus"
  | .minus => "Minus"
  | .times => "Times"
  | .dot => "Dot"

/-- The operator that a character stands for. -/
def BinaryOp.ofSymbol? : Char → Option BinaryOp
  | '+' => some .plus
  | '-' => some .minus
  | '*' => some .times
  | '.' => some .dot
  | _ => none

/-- The functions of the language. -/
inductive Builtin where
  | det
  | inverse
  | transpose
  | adjugate
  | rref
  | solve
  | cramer
  | cross
  | norm2
deriving DecidableEq, Repr

/-- The name of a function in messages. -/
def Builtin.title : Builtin → String
  | .det => "Det"
  | .inverse => "Inverse"
  | .transpose => "Transpose"
  | .adjugate => "Adjugate"
  | .rref => "Rref"
  | .solve => "Solve"
  | .cramer => "Cramer"
  | .cross => "Cross"
  | .norm2 => "Norm2"

/-- The spellings of a function in the language. -/
def Builtin.spellings : List (String × Builtin) :=
  [("det", .det), ("inv", .inverse), ("inverse", .inverse), ("transpose", .transpose),
    ("adj", .adjugate), ("rref", .rref), ("solve", .solve), ("gauss", .solve), ("cramer", .cramer),
    ("cross", .cross), ("norm2", .norm2)]

/-- The function with a spelling. -/
def Builtin.ofName? (name : String) : Option Builtin := spellings.lookup name

/-- Something to compute. -/
inductive Operation where
  | binary (op : BinaryOp) (left right : String)
  | scaled (factor : Rat) (name : String)
  | call (function : Builtin) (args : List String)
  /-- A name alone: what it stands for. -/
  | show (name : String)
deriving DecidableEq, Repr

/-- A statement. -/
inductive Statement where
  /-- Lists all names. -/
  | list
  /-- Binds a name to a literal. -/
  | define (name : String) (value : Stored)
  /-- Binds a name to a result. -/
  | bind (name : String) (operation : Operation)
  | run (operation : Operation)
deriving DecidableEq, Repr

end ExactLinear
