/-!
# Decimal numbers

A `Decimal` is a natural number of digits and a power of ten. It is written positionally, without an
exponent, and with a point only where digits follow it.
-/

namespace FixedPointNet

open Float.Model.UnpackedFloat (Sign)

/-- The decimal number `digits * 10 ^ exponent`. -/
structure Decimal where
  digits : Nat
  exponent : Int
deriving DecidableEq

namespace Decimal

/-- A decimal written positionally. A negative exponent is the number of digits after the point, and
    at least one digit stands before it. -/
def positional (d : Decimal) : String :=
  let digits := Nat.toDigits 10 d.digits
  let zeros (n : Nat) := List.replicate n '0'
  if 0 ≤ d.exponent then String.ofList (digits ++ zeros d.exponent.toNat)
  else
    let places := (-d.exponent).toNat
    let padded := zeros (places + 1 - digits.length) ++ digits
    let whole := padded.length - places
    String.ofList (padded.take whole ++ '.' :: padded.drop whole)

/-- The sign in front of a number. -/
def signText : Sign → String
  | .negative => "-"
  | .positive => ""

end Decimal

end FixedPointNet
