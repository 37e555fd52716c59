import FixedPointNet.Exponential.Nearest
import FixedPointNet.Proofs.Binary64

/-!
# The series of the exponential on the number line

The series is summed in whole numbers, and every division cuts something off. What it gives still
depends on the number alone, not on how the number is written as a fraction, and it does not
decrease where the number grows. A negative argument takes the reciprocal, so that both sides meet
at one.
-/

namespace FixedPointNet.Exponential

open Binary64 (value? level rounded)
open Float.Model (Format UnpackedFloat)

variable {x : Float} {v w : ℚ}

/-- The tail of the series at a number. -/
def tailAt (v : ℚ) (n : Nat) : (terms : Nat) → Nat
  | 0 => 2 ^ seriesBits
  | terms + 1 => 2 ^ seriesBits + ⌊tailAt v (n + 1) terms * v / n⌋₊

theorem seriesTail_eq (numerator denominator n terms : Nat) :
    seriesTail numerator denominator n terms = tailAt (numerator / denominator) n terms := by
  induction terms generalizing n with
  | zero => rfl
  | succ terms ih =>
    have quotient : (tailAt (numerator / denominator) (n + 1) terms * (numerator / denominator) / n
        : ℚ) = ((tailAt (numerator / denominator) (n + 1) terms * numerator : Nat) : ℚ) /
          ((denominator * n : Nat) : ℚ) := by
      push_cast
      rw [← mul_div_assoc, div_div]
    rw [seriesTail, tailAt, ih, quotient, Nat.floor_div_eq_div]
    rfl

theorem two_pow_le_tailAt (v : ℚ) (n terms : Nat) : 2 ^ seriesBits ≤ tailAt v n terms := by
  cases terms with
  | zero => exact le_rfl
  | succ terms => exact Nat.le_add_right _ _

theorem tailAt_le_tailAt (nonneg : 0 ≤ v) (le : v ≤ w) (n terms : Nat) :
    tailAt v n terms ≤ tailAt w n terms := by
  induction terms generalizing n with
  | zero => exact le_rfl
  | succ terms ih =>
    have tails : (tailAt v (n + 1) terms : ℚ) ≤ tailAt w (n + 1) terms := by
      exact_mod_cast ih (n + 1)
    have products : (tailAt v (n + 1) terms * v : ℚ) ≤ tailAt w (n + 1) terms * w :=
      mul_le_mul tails le nonneg (Nat.cast_nonneg _)
    exact Nat.add_le_add_left
      (Nat.floor_mono (div_le_div_of_nonneg_right products n.cast_nonneg)) _

/-- The exponential of a number, scaled to a whole number. -/
def scaledExp (v : ℚ) : Nat :=
  if 0 ≤ v then tailAt v 1 100 else 2 ^ (2 * seriesBits) / tailAt (-v) 1 100

theorem scaledExp_mono : Monotone scaledExp := by
  intro v w le
  unfold scaledExp
  split_ifs with v_nonneg w_nonneg w_nonneg
  · exact tailAt_le_tailAt v_nonneg le 1 100
  · exact absurd (v_nonneg.trans le) w_nonneg
  · calc 2 ^ (2 * seriesBits) / tailAt (-v) 1 100
        ≤ 2 ^ (2 * seriesBits) / 2 ^ seriesBits :=
          Nat.div_le_div_left (two_pow_le_tailAt _ _ _) (Nat.two_pow_pos _)
      _ = 2 ^ seriesBits := by
          rw [two_mul, pow_add, Nat.mul_div_cancel _ (Nat.two_pow_pos _)]
      _ ≤ tailAt w 1 100 := two_pow_le_tailAt _ _ _
  · refine Nat.div_le_div_left ?_ ((Nat.two_pow_pos _).trans_le (two_pow_le_tailAt _ _ _))
    exact tailAt_le_tailAt (by linarith) (neg_le_neg le) 1 100

theorem series_eq (m : Nat) (e : Int) : series m e = tailAt (m * 2 ^ e) 1 100 := by
  have quotient : ((m * Nat.pow 2 e.toNat : Nat) : ℚ) / (Nat.pow 2 (-e).toNat : Nat) =
      m * 2 ^ e := by
    rw [Nat.pow_eq, Nat.pow_eq]
    push_cast
    rcases Int.eq_nat_or_neg e with ⟨k, rfl | rfl⟩
    · simp
    · simp [div_eq_mul_inv]
  rw [series, seriesTail_eq, quotient]

theorem level_nearestOfSeries (m : Nat) :
    level (nearestOfSeries m) = rounded (m / 2 ^ seriesBits) := by
  have scaled : (m / 2 ^ seriesBits : ℚ) = m * 2 ^ (-seriesBits : ℤ) := by
    rw [zpow_neg, zpow_natCast, div_eq_mul_inv]
  rcases Nat.eq_zero_or_pos m with rfl | pos
  · have none : value? (nearestOfSeries 0) = some 0 := rfl
    rw [Binary64.level_of_value? none, Nat.cast_zero, zero_div, rounded, Rounding.rounded_zero]
  · have rounds := Rounding.level_unpack_pack Binary64.wide
      (Rounding.rounds_round .positive pos (-seriesBits))
    rw [scaled, level, nearestOfSeries]
    exact rounds

/-- The nearest float of an exponential depends on the number alone. -/
theorem level_nearest (at_v : value? x = some v) :
    level (nearest x) = rounded (scaledExp v / 2 ^ seriesBits) := by
  rw [Binary64.value?_eq_parts?] at at_v
  unfold nearest scaledExp
  cases parts : Binary64.parts? x with
  | none =>
    rw [parts] at at_v
    cases at_v
  | some pair =>
    obtain ⟨n, e⟩ := pair
    rw [parts] at at_v
    obtain rfl : (n * 2 ^ e : ℚ) = v := by simpa using at_v
    have place : (0 : ℚ) < 2 ^ e := zpow_pos two_pos e
    have nonneg_iff : (0 : ℚ) ≤ n * 2 ^ e ↔ 0 ≤ n := by
      rw [mul_nonneg_iff_of_pos_right place, Int.cast_nonneg_iff]
    simp only [nonneg_iff]
    split_ifs with nonneg
    · obtain ⟨k, rfl⟩ := Int.eq_ofNat_of_zero_le nonneg
      rw [level_nearestOfSeries, series_eq]
      rfl
    · obtain ⟨k, negated⟩ := Int.eq_ofNat_of_zero_le (show 0 ≤ -n by omega)
      obtain rfl : n = -k := by omega
      rw [level_nearestOfSeries, series_eq, neg_neg, Int.toNat_natCast, Int.cast_neg, neg_mul,
        neg_neg, Nat.pow_eq, Int.cast_natCast]

end FixedPointNet.Exponential
