import FixedPointNet.Binary64

/-!
# Single-precision numbers

Widening a `Float32` to a `Float` is exact; narrowing rounds to the nearest, ties to even. The order
key sorts all bit patterns: negative numbers below positive ones, `-0` below `+0`, and what is not a
number above positive infinity.
-/

namespace FixedPointNet.Binary32

open Float.Model (Format UnpackedFloat)

/-- The float with the same value in double precision. -/
def widen (x : Float32) : Float :=
  .ofModel <| .pack <|
    match x.toModel.unpack with
    | .finite s m e _ => UnpackedFloat.round Format.binary64 s m e
    | special => special

/-- The single-precision float nearest to a double-precision one, ties to the even significand. -/
def narrow (x : Float) : Float32 :=
  .ofModel <| .pack <|
    match x.toModel.unpack with
    | .finite s m e _ => UnpackedFloat.round Format.binary32 s m e
    | special => special

/-- The single-precision float nearest to a natural number. -/
def ofNat (n : Nat) : Float32 :=
  .ofModel (.ofNat n)

/-- Negative infinity. -/
def negInfinity : Float32 :=
  .ofBits 0xff800000

/-- Of two floats the larger; of one that is not a number and another, the other. Equal floats give
    the first. -/
def maxNumber (x y : Float32) : Float32 :=
  if x.isNaN then y else if x < y then y else x

/-- The position of a float in the total order of all bit patterns: the bits of the magnitude,
    counted upwards from zero for a positive sign and downwards from minus one for a negative
    sign. -/
def orderKey (x : Float32) : Int :=
  let bits := x.toBits.toNat
  if bits < 0x80000000 then bits else 0x7fffffff - bits

/-- The position of a stored word in the same order. Words tell apart what is not a number by its
    sign and by its other bits. -/
def wordKey (word : UInt32) : Int :=
  let bits := word.toNat
  if bits < 0x80000000 then bits else 0x7fffffff - bits

end FixedPointNet.Binary32
