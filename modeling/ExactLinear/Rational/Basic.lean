import ExactLinear.LinearError

/-!
# Exact rationals

Division that refuses a zero divisor, and the sign as a number. Sums, products and order are those
of `Rat`.
-/

namespace ExactLinear

/-- The quotient of two integers, which exists unless the divisor is zero. -/
def ratio (numer denom : Int) : Except LinearError Rat :=
  if denom = 0 then .error .divisionByZero else .ok (Rat.divInt numer denom)

/-- The quotient of two rationals, which exists unless the divisor is zero. -/
def quotient (a b : Rat) : Except LinearError Rat :=
  if b = 0 then .error .divisionByZero else .ok (a / b)

/-- The reciprocal of a rational, which exists unless it is zero. -/
def reciprocal (r : Rat) : Except LinearError Rat :=
  if r = 0 then .error .divisionByZero else .ok r⁻¹

/-- The sign of a rational: minus one, zero or one. -/
def signOf (r : Rat) : Int := if r < 0 then -1 else if r = 0 then 0 else 1

/-- How two rationals compare: the sign of their difference. -/
def comparison (a b : Rat) : Int := signOf (a - b)

end ExactLinear
