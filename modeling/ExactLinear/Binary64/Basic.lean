/-!
# Binary floating point with 64 bits

A `Binary64` is a sign and a `Magnitude`, which is a mantissa times a power of two or is infinite.
There is no "not a number". `Magnitude.nearest` rounds a rational to the nearest magnitude, and
every other operation is stated by rounding its exact result in that way.
-/

namespace ExactLinear

/-- What a floating-point number is apart from its sign. A finite magnitude is the number
`mantissa * 2 ^ exponent`. Its mantissa has at most 53 bits and its exponent is at least -1074; a
shorter mantissa occurs with the least exponent only. -/
inductive Magnitude where
  | finite (mantissa : Nat) (exponent : Int)
  | infinite
deriving DecidableEq, Repr

/-- A floating-point number. -/
structure Binary64 where
  negative : Bool
  magnitude : Magnitude
deriving DecidableEq, Repr

/-- The power of two with exponent `k`. -/
def powerOfTwo (k : Nat) : Nat := Nat.pow 2 k

/-- The quotient `n / d`, rounded to the nearest integer; a half goes to the even neighbour. -/
def roundHalfEven (n d : Nat) : Nat :=
  let q := n / d
  let r := n % d
  if d < 2 * r ∨ (2 * r = d ∧ q % 2 = 1) then q + 1 else q

namespace Magnitude

/-- The least exponent. -/
def leastExponent : Int := -1074

/-- The greatest exponent of a finite magnitude. -/
def greatestExponent : Int := 971

def zero : Magnitude := .finite 0 leastExponent

/-- The exponent of the highest power of two that is not greater than `n / d`, for positive `n` and
`d`. -/
def floorLog2 (n d : Nat) : Int :=
  let e : Int := Int.ofNat n.log2 - Int.ofNat d.log2
  if d * powerOfTwo e.toNat ≤ n * powerOfTwo (-e).toNat then e else e - 1

/-- A rounded mantissa, carried into the next binade where it fills 54 bits. -/
def ofRounded (mantissa : Nat) (exponent : Int) : Magnitude :=
  let (m, e) :=
    if mantissa = powerOfTwo 53 then (powerOfTwo 52, exponent + 1) else (mantissa, exponent)
  if greatestExponent < e then .infinite else .finite m e

/-- The magnitude nearest to the quotient of `n` and `d`, with ties to the even mantissa. -/
def nearestQuotient (n d : Nat) : Magnitude :=
  if n = 0 then
    zero
  else
    let e := max (floorLog2 n d - 52) leastExponent
    ofRounded (roundHalfEven (n * powerOfTwo (-e).toNat) (d * powerOfTwo e.toNat)) e

/-- The magnitude nearest to the absolute value of a rational. -/
def nearest (r : Rat) : Magnitude := nearestQuotient r.num.natAbs r.den

/-- The rational that a finite magnitude stands for. -/
def value? : Magnitude → Option Rat
  | .finite m e => some (mkRat (Int.ofNat (m * powerOfTwo e.toNat)) (powerOfTwo (-e).toNat))
  | .infinite => none

/-- The nearest magnitude to a product. An infinite factor makes an infinite product. -/
def mul (a b : Magnitude) : Magnitude :=
  match a.value?, b.value? with
  | some x, some y => nearest (x * y)
  | _, _ => .infinite

/-- The nearest magnitude to a quotient with a finite positive divisor. -/
def div (a b : Magnitude) : Magnitude :=
  match a.value?, b.value? with
  | some x, some y => nearest (x / y)
  | _, _ => .infinite

/-- The 63 bits below the sign. -/
def bits : Magnitude → Nat
  | .finite m e =>
    if m < powerOfTwo 52 then m else (e + 1075).toNat * powerOfTwo 52 + (m - powerOfTwo 52)
  | .infinite => 2047 * powerOfTwo 52

end Magnitude

namespace Binary64

/-- The number nearest to a rational. What is too small keeps its sign. -/
def ofRat (r : Rat) : Binary64 := ⟨r < 0, Magnitude.nearest r⟩

/-- The 64 bits of a number, the sign first. -/
def bits (x : Binary64) : Nat := (if x.negative then powerOfTwo 63 else 0) + x.magnitude.bits

/-- The bits as 16 hexadecimal digits. -/
def hexadecimal (x : Binary64) : String :=
  String.ofList ((Nat.toDigits 16 x.bits).leftpad 16 '0')

end Binary64

end ExactLinear
