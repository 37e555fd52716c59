import FixedPointNet.Binary64

/-!
# The nearest float of an exponential

`exp x` as the nearest double-precision float, for the small arguments of the look-up tables. The
argument is taken as its exact value `m * 2 ^ e`, and the power series is summed in fixed point with
two hundred fractional bits, far more than the nearest float needs.
-/

namespace FixedPointNet.Exponential

open Float.Model (Format UnpackedFloat)

/-- Fractional bits of the series. -/
def seriesBits : Nat := 200

/-- The tail `1 + x / n * (1 + x / (n + 1) * (...))` of the exponential series at
    `x = numerator / denominator`, with the given number of terms after the first, scaled by
    `2 ^ seriesBits`. -/
def seriesTail (numerator denominator : Nat) (n : Nat) : (terms : Nat) → Nat
  | 0 => Nat.pow 2 seriesBits
  | terms + 1 =>
      Nat.pow 2 seriesBits +
        seriesTail numerator denominator (n + 1) terms * numerator / (denominator * n)

/-- `exp (m * 2 ^ e) * 2 ^ seriesBits` for a natural number `m`. -/
def series (m : Nat) (e : Int) : Nat :=
  seriesTail (m * Nat.pow 2 e.toNat) (Nat.pow 2 (-e).toNat) 1 100

/-- The float nearest to `m * 2 ^ (-seriesBits)`. -/
def nearestOfSeries (m : Nat) : Float :=
  .ofModel <| .pack <| UnpackedFloat.round Format.binary64 .positive m (-seriesBits)

/-- The float nearest to `exp x`, for a finite `x` of small magnitude. -/
def nearest (x : Float) : Float :=
  match Binary64.parts? x with
  | some (n, e) =>
      if 0 ≤ n then nearestOfSeries (series n.toNat e)
      else nearestOfSeries (Nat.pow 2 (2 * seriesBits) / series (-n).toNat e)
  | none => x

end FixedPointNet.Exponential
