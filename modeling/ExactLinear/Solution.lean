import ExactLinear.Rational.Literal

/-!
# Solutions of linear systems

A system has one solution, infinitely many, or none. Infinitely many are given by the free variables
and by one affine expression in them for each of the others. Variables count from zero and are
printed counted from one.
-/

namespace ExactLinear

/-- A constant plus multiples of variables. -/
structure AffineExpr where
  constant : Rat
  /-- Variables with their coefficients, in the order in which they are printed. -/
  terms : List (Nat × Rat)
deriving DecidableEq, Repr

/-- A variable by its number, counted from one. -/
def variableName (i : Nat) : String := "x_" ++ toString (i + 1)

namespace AffineExpr

/-- A term without its sign; the coefficient one is not written. -/
def termText (var : Nat) (coefficient : Rat) : String :=
  (if coefficient.abs = 1 then "" else Literal.write coefficient.abs ++ "·") ++ variableName var

/-- The sign before a term. At the front of an expression a plus is not written. -/
def signText (front : Bool) (coefficient : Rat) : String :=
  if front then (if coefficient < 0 then "-" else "")
  else (if coefficient < 0 then " - " else " + ")

/-- The terms of a list, where `front` says whether nothing stands before them. -/
def termsText (front : Bool) : List (Nat × Rat) → String
  | [] => ""
  | (var, coefficient) :: terms =>
    if coefficient = 0 then termsText front terms
    else signText front coefficient ++ termText var coefficient ++ termsText false terms

/-- The expression as a sum. What is zero is left out, and a zero stands if nothing remains. -/
def text (e : AffineExpr) : String :=
  if e.constant = 0 then
    let sum := termsText true e.terms
    if sum.isEmpty then "0" else sum
  else
    Literal.write e.constant ++ termsText false e.terms

end AffineExpr

/-- The solutions of a linear system. -/
inductive Solution where
  /-- One solution: a value for each variable. -/
  | unique (values : List Rat)
  /-- One solution for each choice of the free variables. -/
  | infinite (free : List Nat) (expressions : List (Nat × AffineExpr))
  /-- None: this row of the reduced matrix reads `0 = constant`. -/
  | inconsistent (row : Nat) (constant : Rat)
deriving DecidableEq, Repr

namespace Solution

def isUnique : Solution → Bool
  | .unique _ => true
  | _ => false

def isConsistent : Solution → Bool
  | .inconsistent _ _ => false
  | _ => true

/-- Puts a line behind all lines of variables that are not greater. -/
def insertLine (line : Nat × String) : List (Nat × String) → List (Nat × String)
  | [] => [line]
  | l :: lines => if line.1 < l.1 then line :: l :: lines else l :: insertLine line lines

/-- The lines in the order of their variables; lines of one variable keep their order. -/
def sortLines (lines : List (Nat × String)) : List (Nat × String) :=
  lines.foldl (fun sorted line => insertLine line sorted) []

/-- The lines that describe a solution. -/
def lines : Solution → List String
  | .unique values => values.mapIdx fun i x => variableName i ++ " = " ++ Literal.write x
  | .infinite free expressions =>
    let bound := expressions.map fun (var, e) => (var, variableName var ++ " = " ++ e.text)
    let unbound := free.map fun var => (var, variableName var ++ " is free")
    (sortLines (bound ++ unbound)).map (·.2)
  | .inconsistent row constant =>
    ["Row " ++ toString (row + 1) ++ " reads 0 = " ++ Literal.write constant
      ++ ": the system has no solution"]

/-- The text of a solution. -/
def text (s : Solution) : String := "\n".intercalate s.lines

end Solution

end ExactLinear
