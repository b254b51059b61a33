import ExactLinear.RatMatrix.Basic

/-!
# Elementary row operations

A `RowOp` acts on a list of rows. `act` says what it does; `apply` first checks that the rows exist
and that no entry is divided by zero, and changes nothing when it fails. The rows need not be of one
length: a subtraction reaches as far as the shorter of its two rows.
-/

namespace ExactLinear

/-- An elementary row operation, with rows counted from zero. -/
inductive RowOp where
  /-- Exchanges two rows. -/
  | swap (a b : Nat)
  /-- Divides a row by a number. -/
  | divide (row : Nat) (divisor : Rat)
  /-- Subtracts `factor` times row `source` from row `target`. -/
  | subtract (target source : Nat) (factor : Rat)
deriving DecidableEq, Repr

namespace RowOp

/-- Subtracts `factor` times the second row from the first; what the second does not reach stays. -/
def subtractMultiple (factor : Rat) : List Rat → List Rat → List Rat
  | x :: xs, y :: ys => (x - factor * y) :: subtractMultiple factor xs ys
  | xs, _ => xs

/-- The rows after the operation. A row that does not exist reads as empty and is not written. -/
def act (rows : List (List Rat)) : RowOp → List (List Rat)
  | .swap a b => (rows.set a (rows.getD b [])).set b (rows.getD a [])
  | .divide row divisor => rows.modify row (·.map (· / divisor))
  | .subtract target source factor =>
    rows.modify target (subtractMultiple factor · (rows.getD source []))

/-- The rows after all operations of a list, from first to last. -/
def actAll (rows : List (List Rat)) (ops : List RowOp) : List (List Rat) := ops.foldl act rows

/-- The rows that the operation reads or writes, in the order in which they are checked. -/
def touched : RowOp → List Nat
  | .swap a b => [a, b]
  | .divide row _ => [row]
  | .subtract target source _ => [target, source]

/-- The operation divides an entry by zero. -/
def dividesByZero (rows : List (List Rat)) : RowOp → Bool
  | .divide row divisor => divisor = 0 && !(rows.getD row []).isEmpty
  | _ => false

/-- Performs the operation, if the rows allow it. -/
def apply (op : RowOp) (rows : List (List Rat)) : Except LinearError (List (List Rat)) :=
  match op.touched.find? (rows.length ≤ ·) with
  | some i => .error (.indexOutOfRange i 0 ⟨rows.length, (rows.headD []).length⟩)
  | none => if op.dividesByZero rows then .error .divisionByZero else .ok (act rows op)

/-! ## Text -/

/-- A row by its number, counted from one. -/
def rowName (i : Nat) : String := "R" ++ toString (i + 1)

/-- The operation as it stands in a transcript. -/
def text : RowOp → String
  | .swap a b => rowName a ++ " ↔ " ++ rowName b
  | .divide row divisor =>
    if divisor = -1 then
      rowName row ++ " → -" ++ rowName row
    else
      rowName row ++ " → " ++ rowName row ++ " / " ++ Literal.writeFactor divisor
  | .subtract target source factor =>
    let sign := if factor < 0 then " + " else " - "
    let multiple :=
      if factor.abs = 1 then rowName source
      else "(" ++ Literal.write factor.abs ++ " · " ++ rowName source ++ ")"
    rowName target ++ " → " ++ rowName target ++ sign ++ multiple

end RowOp

end ExactLinear
