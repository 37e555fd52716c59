import FixedPointNet.Decimal.Basic

/-!
# The shortest decimal of a float

A positive float `m * 2 ^ q` stands for an interval of real numbers: those that round to it. The
shortest decimal is the one with the fewest digits inside that interval, and of those the nearest to
the float. It is found by exact comparison of natural numbers, one digit count after the other.
-/

namespace FixedPointNet.Decimal

/-- A positive real number and the ends of the interval that rounds to it, as numerators over one
    denominator. -/
structure Interval where
  low : Nat
  value : Nat
  high : Nat
  denominator : Nat
  /-- Both ends belong to the interval. -/
  closed : Bool

/-- The interval of the double-precision float `m * 2 ^ q`. Below a power of two the neighbours are
    half as far apart, except where the exponent is already the least. -/
def Interval.ofFloat (m : Nat) (q : Int) : Interval :=
  let scale := Nat.pow 2 q.toNat
  let below := if m = 0x10000000000000 ∧ -1074 < q then 1 else 2
  { low := (4 * m - below) * scale
    value := 4 * m * scale
    high := (4 * m + 2) * scale
    denominator := 4 * Nat.pow 2 (-q).toNat
    closed := m % 2 = 0 }

/-- Whether a decimal lies in the interval. -/
def Interval.contains (i : Interval) (d : Decimal) : Bool :=
  let x := d.digits * Nat.pow 10 d.exponent.toNat * i.denominator
  let unit := Nat.pow 10 (-d.exponent).toNat
  if i.closed then i.low * unit ≤ x && x ≤ i.high * unit
  else i.low * unit < x && x < i.high * unit

/-- The least `k` for which the value is below `10 ^ k`. -/
def Interval.magnitude (i : Interval) : Int :=
  if i.denominator ≤ i.value then
    (Nat.toDigits 10 (i.value / i.denominator)).length
  else
    1 - ((Nat.toDigits 10 ((i.denominator - 1) / i.value)).length : Int)

/-- The decimal with at most `count` digits that lies in the interval, the nearer one if there are
    two, the greater one if both are as near. The value's upper neighbour among the decimals with
    `count` digits may be a power of ten. -/
def Interval.withDigits? (i : Interval) (count : Nat) : Option Decimal :=
  let exponent := i.magnitude - count
  let numerator := i.value * Nat.pow 10 (-exponent).toNat
  let denominator := i.denominator * Nat.pow 10 exponent.toNat
  let below : Decimal := ⟨numerator / denominator, exponent⟩
  let above : Decimal :=
    if numerator / denominator + 1 = Nat.pow 10 count then ⟨1, i.magnitude⟩
    else ⟨numerator / denominator + 1, exponent⟩
  let nearer := if 2 * (numerator % denominator) < denominator then below else above
  if i.contains nearer then some nearer
  else if i.contains below then some below
  else if i.contains above then some above
  else none

/-- The shortest decimal that rounds to `m * 2 ^ q`. Seventeen digits always suffice; the exact
    value closes the search. -/
def shortest (m : Nat) (q : Int) : Decimal :=
  let interval := Interval.ofFloat m q
  ((List.range 17).findSome? fun n => interval.withDigits? (n + 1)).getD <|
    if 0 ≤ q then ⟨m * Nat.pow 2 q.toNat, 0⟩ else ⟨m * Nat.pow 5 (-q).toNat, q⟩

/-- A float written positionally with the fewest digits that identify it: `1`, `0.1`, `-0`. -/
def plain (x : Float) : String :=
  match x.toModel.unpack with
  | .notANumber => "NaN"
  | .infinity s => signText s ++ "inf"
  | .zero s => signText s ++ "0"
  | .finite s m e _ => signText s ++ (shortest m e).positional

end FixedPointNet.Decimal
