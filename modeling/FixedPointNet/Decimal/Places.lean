import FixedPointNet.Decimal.Basic

/-!
# Decimals with a fixed number of places

The exact value of a float is rounded to the asked number of places, a tie going to the even digit.
-/

namespace FixedPointNet.Decimal

/-- The natural number nearest to `numerator / denominator`, a tie going to the even one. -/
def roundDiv (numerator denominator : Nat) : Nat :=
  let quotient := numerator / denominator
  match compare (2 * (numerator % denominator)) denominator with
  | .lt => quotient
  | .eq => quotient + quotient % 2
  | .gt => quotient + 1

/-- A float written with a fixed, positive number of places. The sign stays when all digits are
    zero. -/
def fixed (places : Nat) (x : Float) : String :=
  match x.toModel.unpack with
  | .notANumber => "NaN"
  | .infinity s => signText s ++ "inf"
  | .zero s => signText s ++ positional ⟨0, -places⟩
  | .finite s m e _ =>
      let units :=
        roundDiv (m * Nat.pow 2 e.toNat * Nat.pow 10 places) (Nat.pow 2 (-e).toNat)
      signText s ++ positional ⟨units, -places⟩

end FixedPointNet.Decimal
