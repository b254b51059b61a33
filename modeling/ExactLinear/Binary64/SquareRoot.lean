import ExactLinear.Binary64.Basic

/-!
# Correctly rounded square roots

The root of a magnitude is computed in integers with more bits than the result keeps. One more bit,
the sticky bit, tells whether the integer root is below the exact one, and rounding then decides as
it would for the exact root.
-/

namespace ExactLinear

namespace Magnitude

/-- The magnitude nearest to the square root. -/
def sqrt : Magnitude → Magnitude
  | .infinite => .infinite
  | .finite m e =>
    -- `m * 2 ^ e = scaled * 2 ^ (2 * half - 120)`
    let half := e / 2
    let scaled := m * powerOfTwo (e % 2).toNat * powerOfTwo 120
    let root := Nat.sqrt scaled
    let sticky := if root * root = scaled then 0 else 1
    let shift := half - 61
    nearestQuotient ((2 * root + sticky) * powerOfTwo shift.toNat) (powerOfTwo (-shift).toNat)

end Magnitude

end ExactLinear
