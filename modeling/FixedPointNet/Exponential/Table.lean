import FixedPointNet.Exponential.Nearest

/-!
# The table exponential

The fixed-point heads evaluate exponentials with two look-up tables: `exp k` for the whole numbers
from -9 to 9, and `exp f` for the fractions from -0.999 to 0.999 in steps of a thousandth. An
argument is limited to the range from -9.999 to 9.999, split into its floor and a fraction, and the
fraction is rounded to the nearest step; the product of the two entries is the result.
-/

namespace FixedPointNet.Exponential

/-- Arguments are limited to this magnitude. -/
def argumentLimit : Float := 9.999

/-- The greatest whole number in the table. -/
def wholeLimit : Int := 9

/-- Fractions are limited to this magnitude. -/
def fractionLimit : Float := 0.999

/-- The distance of two fractions in the table. -/
def fractionStep : Float := 0.001

/-- Number of entries of the table of whole numbers. -/
def wholeEntries : Nat := 19

/-- Number of entries of the table of fractions. -/
def fractionEntries : Nat := 1999

/-- The entry at position `i` of the table of whole numbers, `exp (i - 9)`. -/
def wholeEntry (i : Nat) : Float :=
  nearest (Binary64.ofInt (i - wholeLimit))

/-- The entry at position `i` of the table of fractions, `exp f` at the float `f` nearest to
    `(i - 999) / 1000`. -/
def fractionEntry (i : Nat) : Float :=
  nearest (Binary64.ofInt (i - 999) / 1000)

/-- The table of whole numbers. -/
def wholeTable : Array Float :=
  (Array.range wholeEntries).map wholeEntry

/-- The table of fractions. -/
def fractionTable : Array Float :=
  (Array.range fractionEntries).map fractionEntry

/-- The argument inside the range of the tables; what is not a number counts as zero. -/
def limited (x : Float) : Float :=
  if x.isNaN then 0 else Binary64.clamp (-argumentLimit) argumentLimit x

/-- The whole part of a limited argument. -/
def wholePart (x : Float) : Int :=
  Binary64.floorClamp (-wholeLimit) wholeLimit x

/-- What a limited argument exceeds its whole part by. Below -9 it is negative. -/
def fractionPart (x : Float) : Float :=
  Binary64.clamp (-fractionLimit) fractionLimit (x - Binary64.ofInt (wholePart x))

/-- Position of the whole part in its table. -/
def wholeIndex (x : Float) : Nat :=
  (wholePart x + wholeLimit).toNat

/-- Position of the step nearest to the fraction in its table. -/
def fractionIndex (x : Float) : Nat :=
  let steps := Binary64.roundHalfAway ((fractionPart x + fractionLimit) / fractionStep)
  (Binary64.floorClamp 0 (fractionEntries - 1) steps).toNat

/-- The table exponential. -/
def tableExp (x : Float) : Float :=
  let x := limited x
  wholeTable.getD (wholeIndex x) 0 * fractionTable.getD (fractionIndex x) 0

/-- The logistic function over the table exponential. -/
def sigmoid (x : Float) : Float :=
  1 / (1 + tableExp (-x))

/-- Exponentials of a row divided by their sum. The largest number of the row is subtracted first,
    so that no exponent is positive. -/
def softmax (row : List Float) : List Float :=
  let largest := row.foldl Binary64.maxNumber Binary64.negInfinity
  let terms := row.map fun x => tableExp (x - largest)
  let total := terms.foldl (· + ·) 0
  if 0 < total then terms.map (· / total) else terms

end FixedPointNet.Exponential
