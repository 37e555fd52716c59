/-!
# Double-precision numbers and integers

A finite `Float` is the exact number `n * 2 ^ e` for integers `n` and `e`. The functions here read
that number off the bits and go back: the nearest float of an integer, the floor of a float pinned
to a range of integers, rounding to the nearest integer with halves away from zero, and a maximum
that passes over values that are not numbers. All of them are total and compute in exact integer
arithmetic, so each can be reasoned about through `parts?`.
-/

namespace FixedPointNet.Binary64

open Float.Model (UnpackedFloat)
open Float.Model.UnpackedFloat (Sign)

/-- The float nearest to an integer, ties to the even significand; zero gives `+0`. -/
def ofInt (n : Int) : Float :=
  .ofModel (.ofInt n)

/-- The float nearest to a natural number. -/
def ofNat (n : Nat) : Float :=
  ofInt n

/-- Positive infinity. -/
def infinity : Float :=
  .ofBits 0x7ff0000000000000

/-- Negative infinity. -/
def negInfinity : Float :=
  .ofBits 0xfff0000000000000

/-- Integers `n` and `e` with `x = n * 2 ^ e`, for a finite `x`. Both zeros give `0 * 2 ^ 0`. -/
def parts? (x : Float) : Option (Int × Int) :=
  match x.toModel.unpack with
  | .zero _ => some (0, 0)
  | .finite s m e _ => some (s.apply m, e)
  | .infinity _ => none
  | .notANumber => none

/-- The largest integer not above `n * 2 ^ e`. -/
def floorScaled (n e : Int) : Int :=
  if 0 ≤ e then n * Nat.pow 2 e.toNat else n / Nat.pow 2 (-e).toNat

/-- The integer nearest to `m * 2 ^ e`, halves upwards. -/
def roundScaled (m : Nat) (e : Int) : Nat :=
  if 0 ≤ e then m * Nat.pow 2 e.toNat
  else (m + Nat.pow 2 ((-e).toNat - 1)) / Nat.pow 2 (-e).toNat

/-- The largest integer not above a finite float. -/
def floor? (x : Float) : Option Int :=
  (parts? x).map fun (n, e) => floorScaled n e

/-- The floor of a float, pinned to `lo` and `hi`. An infinity gives the limit on its side, and what
    is not a number gives zero. -/
def floorClamp (lo hi : Int) (x : Float) : Int :=
  match floor? x with
  | some n => max lo (min hi n)
  | none => if x.isNaN then 0 else if x < 0 then lo else hi

/-- The least integer not below a float, pinned to `lo` and `hi`. -/
def ceilClamp (lo hi : Int) (x : Float) : Int :=
  -floorClamp (-hi) (-lo) (-x)

/-- Rounds a float to the nearest integral float, halves away from zero. The sign is kept, also of a
    result that is zero. -/
def roundHalfAway (x : Float) : Float :=
  match x.toModel.unpack with
  | .finite s m e _ =>
      if 0 ≤ e then x
      else
        let magnitude := ofNat (roundScaled m e)
        match s with
        | .negative => -magnitude
        | .positive => magnitude
  | _ => x

/-- Of two floats the larger; of one that is not a number and another, the other. Equal floats give
    the first. -/
def maxNumber (x y : Float) : Float :=
  if x.isNaN then y else if x < y then y else x

/-- Moves a float into the interval from `lo` to `hi`. -/
def clamp (lo hi x : Float) : Float :=
  if x < lo then lo else if hi < x then hi else x

end FixedPointNet.Binary64
