import ExactLinear.Json.Token
import ExactLinear.Json.Value

/-!
# The values of JSON numbers

A number without fraction and exponent is an integer as long as it has 64 bits. Every other number
is read in floating point: a significand below `2 ^ 64` is scaled by a power of ten, which is a
floating-point number itself, so that the result is rounded twice. A number that is too large has no
value.
-/

namespace ExactLinear.Json

/-- Appends digits to a significand while it stays below `2 ^ 64`, and returns the digits left
over. -/
def appendDigits (significand : Nat) : List Char → Nat × List Char
  | [] => (significand, [])
  | c :: digits =>
    let next := 10 * significand + (c.toNat - '0'.toNat)
    if next < powerOfTwo 64 then appendDigits next digits else (significand, c :: digits)

/-- The greatest power of ten that scales in one step. -/
def greatestScale : Nat := 308

/-- The power of ten as a floating-point magnitude. -/
def powerOfTen (k : Nat) : Magnitude := .nearest (mkRat (Int.ofNat (Nat.pow 10 k)) 1)

/-- Multiplies by `10 ^ k`, if the product is finite. -/
def scaleUp? (k : Nat) (x : Magnitude) : Option Magnitude :=
  if k ≤ greatestScale then
    match x.mul (powerOfTen k) with
    | .infinite => none
    | product => some product
  else if x = .zero then
    some x
  else
    none

/-- Divides by `10 ^ k`, in steps of at most `10 ^ greatestScale`. -/
def scaleDown (k : Nat) (x : Magnitude) : Magnitude :=
  if k ≤ greatestScale then
    x.div (powerOfTen k)
  else if x = .zero then
    x
  else
    scaleDown (k - greatestScale) (x.div (powerOfTen greatestScale))
termination_by k
decreasing_by simp_all [greatestScale]; omega

namespace NumberLiteral

/-- The significand and the power of ten by which it is scaled. A digit that the significand has no
room for counts as a zero before the point and is dropped after it. -/
def significand (n : NumberLiteral) : Nat × Int :=
  let fraction := n.fraction.getD []
  let (s, wholeLeft) := appendDigits 0 n.whole
  let (s, fractionLeft) := appendDigits s fraction
  let exponent : Int :=
    match n.exponent with
    | none => 0
    | some (negative, digits) =>
      let e : Int := Nat.ofDigitChars 10 digits 0
      if negative then -e else e
  (s, Int.ofNat wholeLeft.length - Int.ofNat (fraction.length - fractionLeft.length) + exponent)

/-- The magnitude in floating point, if it is finite. -/
def magnitude? (n : NumberLiteral) : Option Magnitude :=
  let (s, e) := n.significand
  let x := Magnitude.nearest (mkRat (Int.ofNat s) 1)
  if 0 ≤ e then scaleUp? e.toNat x else some (scaleDown e.natAbs x)

/-- The number as an integer, if it is written as one and has 64 bits. A negative zero has none. -/
def integer? (n : NumberLiteral) : Option Int :=
  match n.fraction, n.exponent with
  | none, none =>
    let v := Nat.ofDigitChars 10 n.whole 0
    if n.negative then
      if 0 < v ∧ v ≤ powerOfTwo 63 then some (-Int.ofNat v) else none
    else
      if v < powerOfTwo 64 then some (Int.ofNat v) else none
  | _, _ => none

/-- The value of a number. -/
def value? (n : NumberLiteral) : Option Json :=
  match n.integer? with
  | some v => some (.integer v)
  | none => n.magnitude?.map fun m => .double ⟨n.negative, m⟩

end NumberLiteral

end ExactLinear.Json
