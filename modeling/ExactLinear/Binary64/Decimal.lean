import ExactLinear.Binary64.Basic

/-!
# Floating-point numbers in decimal

Two ways to write a magnitude: with a fixed number of places, rounded from its exact value, and with
the fewest digits that still read back as the same magnitude.

In units of `10 ^ -1076` every finite magnitude, half of its distance to a neighbour and a quarter
of that distance are integers, so both ways are exact integer arithmetic.
-/

namespace ExactLinear.Magnitude

/-- Decimal digits with a point before the last `places` of them. -/
def withPoint (places n : Nat) : String :=
  let digits := (Nat.toDigits 10 n).leftpad (places + 1) '0'
  String.ofList (digits.take (digits.length - places)) ++ "."
    ++ String.ofList (digits.drop (digits.length - places))

/-- The magnitude with `places` digits after the point; a half goes to the even neighbour. -/
def fixed (places : Nat) : Magnitude → String
  | .infinite => "inf"
  | .finite m e =>
    withPoint places
      (roundHalfEven (m * powerOfTwo e.toNat * Nat.pow 10 places) (powerOfTwo (-e).toNat))

/-! ## The fewest digits that read back -/

/-- The number of decimal places in which magnitudes and quarters of their distances are
integers. -/
def exactPlaces : Nat := 1076

/-- The power of two `2 ^ e` in units of `10 ^ -exactPlaces`. -/
def exactUnits (e : Int) : Nat :=
  powerOfTwo e.toNat * Nat.pow 10 exactPlaces / powerOfTwo (-e).toNat

/-- Whether a decimal `x` reads back as `m * 2 ^ e`, all in exact units. The ends of the interval
belong to it when the mantissa is even. Below a power of two the neighbour is nearer by half. -/
def readsBack (m : Nat) (e : Int) (x : Nat) : Bool :=
  let v := m * exactUnits e
  let above := exactUnits (e - 1)
  let below := if m = powerOfTwo 52 ∧ leastExponent < e then exactUnits (e - 2) else above
  if m % 2 = 0 then v ≤ x + below && x ≤ v + above else v < x + below && x < v + above

/-- The multiple of `step` nearest to `v` that reads back as `m * 2 ^ e`, of equally near ones the
one with an even factor. -/
def onGrid? (m : Nat) (e : Int) (v step : Nat) : Option Nat :=
  let floor := v / step * step
  let ceil := floor + step
  match readsBack m e floor, readsBack m e ceil with
  | false, false => none
  | true, false => some floor
  | false, true => some ceil
  | true, true => some (roundHalfEven v step * step)

/-- The shortest decimal that reads back as `m * 2 ^ e`, in exact units. Seventeen digits are
enough. -/
def shortestUnits (m : Nat) (e : Int) : Nat :=
  let v := m * exactUnits e
  let digits := (Nat.toDigits 10 v).length
  ((List.range' 1 17).findSome? fun k => onGrid? m e v (Nat.pow 10 (digits - k))).getD v

/-- The digits of the shortest decimal, without zeros at the end, and the power of ten of the first
one. -/
def shortestDigits (m : Nat) (e : Int) : List Char × Int :=
  let digits := Nat.toDigits 10 (shortestUnits m e)
  let significant := (digits.reverse.dropWhile (· = '0')).reverse
  (significant, Int.ofNat digits.length - 1 - Int.ofNat exactPlaces)

/-- Writes digits of which the first counts `10 ^ x`: with a point in its place if `x` is from -5 to
15, and as a factor with a power of ten otherwise. A number without a fraction is written with the
place `.0`. -/
def withExponent (digits : List Char) (x : Int) : String :=
  if -5 ≤ x ∧ x < 0 then
    "0." ++ String.ofList (List.replicate (-x - 1).toNat '0' ++ digits)
  else if 0 ≤ x ∧ x ≤ 15 then
    let whole := digits.take (x.toNat + 1)
    let fraction := digits.drop (x.toNat + 1)
    String.ofList (whole ++ List.replicate (x.toNat + 1 - whole.length) '0') ++ "."
      ++ (if fraction.isEmpty then "0" else String.ofList fraction)
  else
    let fraction := digits.drop 1
    String.ofList (digits.take 1)
      ++ (if fraction.isEmpty then "" else "." ++ String.ofList fraction)
      ++ (if x < 0 then "e-" else "e+") ++ toString x.natAbs

/-- The shortest text of a magnitude. -/
def shortest : Magnitude → String
  | .infinite => "inf"
  | .finite m e =>
    if m = 0 then "0.0"
    else
      let (digits, x) := shortestDigits m e
      withExponent digits x

end ExactLinear.Magnitude

namespace ExactLinear.Binary64

/-- The shortest text that reads back as the number. -/
def text (x : Binary64) : String := (if x.negative then "-" else "") ++ x.magnitude.shortest

end ExactLinear.Binary64
