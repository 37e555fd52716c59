import FixedPointNet.Proofs.Binary64

/-!
# How far rounding moves a number

Rounding to the nearest number of a format moves a number by at most half a place: a fixed share of
its magnitude, and no less than half the least place. For double precision the share is below 1e-15,
and the least place is below everything that is computed with here. What follows bounds results from
above, also those that overflow.
-/

namespace FixedPointNet

open Float.Model (Format)

theorem Rounding.abs_nearest_sub_le (spec : Format) (x : ℚ) :
    |nearest spec x - x| ≤ |x| / 2 ^ spec.mantissaBits + 2 ^ (spec.minExponent - 1) := by
  have share_nonneg : 0 ≤ |x| / 2 ^ spec.mantissaBits := by positivity
  have least_pos : (0 : ℚ) < 2 ^ (spec.minExponent - 1) := zpow_pos two_pos _
  rcases eq_or_ne x 0 with rfl | nonzero
  · rw [nearest_zero, sub_zero, abs_zero, zero_div, zero_add]
    exact least_pos.le
  have half : |nearest spec x - x| ≤ 2 ^ (placeExponent spec x - 1) := by
    have place_pos : (0 : ℚ) < 2 ^ placeExponent spec x := zpow_pos two_pos _
    have near := (isNearest_nearestEven (x / 2 ^ placeExponent spec x)).distance
    have scaled : nearest spec x - x =
        -(x / 2 ^ placeExponent spec x - nearestEven (x / 2 ^ placeExponent spec x)) *
          2 ^ placeExponent spec x := by
      rw [nearest]
      field_simp
      ring
    have scaled_near := mul_le_mul_of_nonneg_right near place_pos.le
    rw [scaled, abs_mul, abs_neg, abs_of_pos place_pos, zpow_sub_one₀ two_ne_zero]
    linarith
  refine half.trans ?_
  by_cases least : placeExponent spec x = spec.minExponent
  · rw [least]
    linarith
  · -- above the least place, half a place is the share of the power of two below the number
    have split : (2 : ℚ) ^ (placeExponent spec x - 1) =
        2 ^ (placeExponent spec x + spec.mantissaBits - 1) / 2 ^ spec.mantissaBits := by
      rw [← zpow_natCast, ← zpow_sub₀ two_ne_zero]
      congr 1
      omega
    have shared : (2 : ℚ) ^ (placeExponent spec x - 1) ≤ |x| / 2 ^ spec.mantissaBits := by
      rw [split]
      exact div_le_div_of_nonneg_right (place_le_abs spec nonzero least) (by positivity)
    linarith

namespace Binary64

variable {x : Float} {v w : ℚ}

/-- An upper bound of what a number that is not negative is rounded to. -/
def roundedUp (v : ℚ) : ℚ :=
  v * (1 + 1 / 10 ^ 15) + 1 / 10 ^ 30

/-- A lower bound of what a number that is not negative is rounded to. -/
def roundedDown (v : ℚ) : ℚ :=
  v * (1 - 1 / 10 ^ 15) - 1 / 10 ^ 30

theorem abs_nearest_sub_le (nonneg : 0 ≤ v) :
    |Rounding.nearest .binary64 v - v| ≤ v / 2 ^ 53 + 1 / 2 ^ 200 := by
  have within := Rounding.abs_nearest_sub_le .binary64 v
  have bits : Format.binary64.mantissaBits = 53 := rfl
  have least : (2 : ℚ) ^ (Format.binary64.minExponent - 1) ≤ 1 / 2 ^ 200 :=
    calc (2 : ℚ) ^ (Format.binary64.minExponent - 1) ≤ 2 ^ (-200 : ℤ) :=
          zpow_le_zpow_right₀ one_le_two (by decide)
      _ = 1 / 2 ^ 200 := by norm_num
  rw [abs_of_nonneg nonneg, bits] at within
  linarith

theorem rounded_le_nearest (nonneg : 0 ≤ v) : rounded v ≤ Rounding.nearest .binary64 v := by
  have positive := Rounding.limit_pos .binary64
  have result := Rounding.nearest_nonneg .binary64 nonneg
  exact max_le (by linarith) (min_le_right _ _)

theorem rounded_le_roundedUp (nonneg : 0 ≤ v) : rounded v ≤ roundedUp v := by
  have within := (abs_le.mp (abs_nearest_sub_le nonneg)).2
  have below := rounded_le_nearest nonneg
  rw [roundedUp]
  linarith

/-- Rounding moves a number below the limit by less than it moves without one. -/
theorem abs_rounded_sub_le (nonneg : 0 ≤ v) (small : v ≤ limit) :
    |rounded v - v| ≤ v / 2 ^ 53 + 1 / 2 ^ 200 := by
  have within := abs_le.mp (abs_nearest_sub_le nonneg)
  have below := rounded_le_nearest nonneg
  have above : min limit (Rounding.nearest .binary64 v) ≤ rounded v := le_max_right _ _
  rw [abs_le]
  rcases min_cases limit (Rounding.nearest .binary64 v) with ⟨same, -⟩ | ⟨same, -⟩
  all_goals rw [same] at above
  all_goals constructor <;> linarith

theorem roundedDown_le_rounded (nonneg : 0 ≤ v) (small : v ≤ limit) :
    roundedDown v ≤ rounded v := by
  have within := (abs_le.mp (abs_rounded_sub_le nonneg small)).1
  rw [roundedDown]
  linarith

theorem rounded_nonneg (nonneg : 0 ≤ v) : 0 ≤ rounded v := by
  have rounds := Rounding.rounded_mono .binary64 nonneg
  rwa [Rounding.rounded_zero] at rounds

/-- A share of an integer that stays one part in 2 ^ 53 below it is not rounded up to it: rounding
    adds less than is missing. -/
theorem rounded_mul_natCast_lt {k : Nat} (positive : 0 < k) (nonneg : 0 ≤ v)
    (le : v ≤ 1 - 1 / 2 ^ 53) : rounded (v * k) < k := by
  have one_le : (1 : ℚ) ≤ k := Nat.one_le_cast.mpr positive
  have product_nonneg : 0 ≤ v * k := mul_nonneg nonneg k.cast_nonneg
  have product_le : v * k ≤ (1 - 1 / 2 ^ 53) * k := mul_le_mul_of_nonneg_right le k.cast_nonneg
  have within := (abs_le.mp (abs_nearest_sub_le product_nonneg)).2
  have below := rounded_le_nearest product_nonneg
  linarith

theorem rounded_of_value? (value : value? x = some v) : rounded v = v :=
  (packed x).rounded_eq value

/-- What is not above the number of a float is not rounded above it. -/
theorem rounded_le_of_value? (value : value? x = some w) (le : v ≤ w) : rounded v ≤ w := by
  rw [← rounded_of_value? value]
  exact Rounding.rounded_mono .binary64 le

theorem two_pow_lt_limit : (2 ^ 64 : ℚ) < limit :=
  pow_lt_pow_right₀ one_lt_two (by decide)

theorem abs_rounded_sub_le_of_le_two_pow (nonneg : 0 ≤ v) (le : v ≤ 2 ^ 64) :
    |rounded v - v| ≤ v / 2 ^ 53 + 1 / 2 ^ 200 :=
  abs_rounded_sub_le nonneg (le.trans two_pow_lt_limit.le)

/-- The floats below an integer have the last place of the power of two that is not below it. -/
theorem placeExponent_of_lt_natCast {k : Nat} (positive : 0 < k) (near : k - 1 / 2 ≤ v)
    (below : v < k) :
    Rounding.placeExponent .binary64 v = Format.binary64.targetExponent (Nat.clog 2 k) := by
  have power_lt : 2 ^ Nat.clog 2 k < 2 * k := by
    rcases Nat.eq_or_lt_of_le (Nat.one_le_iff_ne_zero.mpr positive.ne') with rfl | more
    · decide
    · have previous := Nat.pow_pred_clog_lt_self Nat.one_lt_two more
      have nonzero := Nat.clog_pos Nat.one_lt_two more
      rw [← Nat.succ_pred_eq_of_pos nonzero, Nat.pow_succ]
      omega
  have double : (2 ^ Nat.clog 2 k + 1 : ℚ) ≤ 2 * k := by exact_mod_cast power_lt
  have high : (k : ℚ) ≤ 2 ^ Nat.clog 2 k := by exact_mod_cast Nat.le_pow_clog Nat.one_lt_two k
  have halved : (2 : ℚ) ^ (Nat.clog 2 k - 1 : ℤ) = 2 ^ Nat.clog 2 k / 2 := by
    rw [zpow_sub_one₀ two_ne_zero, zpow_natCast]
    rfl
  have place := Rounding.placeExponent_eq .binary64 (x := v) (e := Nat.clog 2 k - 1)
    (by rw [halved]; linarith) (by rw [sub_add_cancel, zpow_natCast]; linarith)
  rwa [sub_add_cancel] at place

theorem rounded_lt_iff (small : w < limit) (lower : -limit < w) :
    rounded v < w ↔ Rounding.nearest .binary64 v < w := by
  rw [rounded, Rounding.rounded, max_lt_iff, min_lt_iff, and_iff_right lower,
    or_iff_right small.not_gt]

/-- A number just below an integer is rounded to it unless it misses it by more than half of the
    last place. -/
theorem rounded_lt_natCast_iff {k : Nat} (positive : 0 < k) (small : k ≤ 2 ^ 52)
    (near : k - 1 / 2 ≤ v) (below : v < k) :
    rounded v < k ↔ 2 ^ Nat.clog 2 k / 2 ^ 54 < k - v := by
  have far := two_pow_lt_limit
  have k_le : (k : ℚ) ≤ 2 ^ 52 := by exact_mod_cast small
  have least : Format.binary64.minExponent ≤ -53 := by decide
  have mantissa : Format.binary64.mantissaBits = 53 := rfl
  obtain ⟨c, bits⟩ := Nat.exists_eq_add_of_le (Nat.clog_le_of_le_pow small)
  have place : Rounding.placeExponent .binary64 v = -((c + 1 : ℕ) : ℤ) := by
    rw [placeExponent_of_lt_natCast positive near below, Format.targetExponent, mantissa]
    omega
  have half : (2 ^ Nat.clog 2 k / 2 ^ 54 : ℚ) = 1 / 2 / 2 ^ (c + 1) := by
    rw [show 54 = Nat.clog 2 k + (c + 1) + 1 by omega]
    field_simp
    ring
  rw [rounded_lt_iff (by linarith) (by linarith), half]
  exact Rounding.nearest_lt_natCast_iff .binary64 place

/-- Rounding moves a small number by less than 1e-15. -/
theorem abs_rounded_sub_le_of_abs_le (small : |v| ≤ 2) : |rounded v - v| ≤ 1 / 10 ^ 15 := by
  have far := two_pow_lt_limit
  have bound {w : ℚ} (nonneg : 0 ≤ w) (le : w ≤ 2) : |rounded w - w| ≤ 1 / 10 ^ 15 :=
    (abs_rounded_sub_le nonneg (by linarith)).trans (by linarith)
  obtain ⟨low, high⟩ := abs_le.mp small
  rcases le_total 0 v with nonneg | nonpos
  · exact bound nonneg high
  · have mirrored := bound (neg_nonneg.mpr nonpos) (by linarith)
    rwa [rounded, Rounding.rounded_neg, ← neg_sub', abs_neg] at mirrored

/-- A machine word is rounded to a number. -/
theorem value?_ofNat {k : Nat} (small : (k : ℚ) ≤ 2 ^ 64) :
    value? (ofNat k) = some (rounded k) := by
  have below : rounded k ≤ 2 ^ 64 :=
    rounded_le_of_value? (x := 18446744073709551616) (by decide +kernel) small
  apply value?_of_level (level_ofNat k)
  rw [abs_of_nonneg (rounded_nonneg k.cast_nonneg)]
  exact below.trans_lt two_pow_lt_limit

/-- The bound of a sum holds also where an operand is infinite. -/
theorem lift_le_roundedUp {f : ℚ → ℚ} (nonneg : 0 ≤ v) (grows : v ≤ f v) :
    lift f v ≤ (roundedUp (f v) : ℚ) := by
  have positive := Rounding.limit_pos .binary64
  have up : f v ≤ roundedUp (f v) := by
    rw [roundedUp]
    linarith
  rw [lift, WithBot.map_coe, WithBot.coe_le_coe, if_neg (by linarith)]
  split_ifs with infinite
  · linarith
  · exact rounded_le_roundedUp (nonneg.trans grows)

end Binary64

end FixedPointNet
