import FixedPointNet.Proofs.Binary64.Error

/-!
# What double precision computes without rounding

Fractions of few bits are numbers of double precision, and a number of double precision that is
scaled up by a power of two stays one. Moving a float between two limits rounds nothing either.
-/

namespace FixedPointNet.Binary64

open Float.Model (Format)
open Rounding (Representable)

variable {x lo hi : Float} {a b v : ℚ}

theorem representable (at_v : value? x = some v) : Representable .binary64 v :=
  (packed x).representable at_v

/-- A multiple of a power of two, of at most 53 bits. -/
theorem representable_div_two_pow {n : ℤ} (fits : |n| < 2 ^ 53) {k : Nat} (few : k ≤ 1000) :
    Representable .binary64 (n / 2 ^ k) := by
  have least : Format.binary64.minExponent ≤ -1000 := by decide
  refine ⟨n, -k, by omega, fits, ?_⟩
  rw [zpow_neg, zpow_natCast, div_eq_mul_inv]

/-- Integers up to 2 ^ 53. -/
theorem representable_intCast {n : ℤ} (small : |n| ≤ 2 ^ 53) : Representable .binary64 n := by
  have least : Format.binary64.minExponent ≤ 0 := by decide
  rcases small.lt_or_eq with fits | largest
  · exact ⟨n, 0, least, fits, by simp⟩
  · rcases eq_or_eq_neg_of_abs_eq largest with rfl | rfl
    · exact ⟨1, 53, by omega, by decide, by norm_num⟩
    · exact ⟨-1, 53, by omega, by decide, by norm_num⟩

theorem representable_mul_two_pow (representable : Representable .binary64 v) (k : Nat) :
    Representable .binary64 (v * 2 ^ k) := by
  obtain ⟨m, e, least, fits, rfl⟩ := representable
  refine ⟨m, e + k, by omega, fits, ?_⟩
  rw [zpow_add₀ two_ne_zero, zpow_natCast, mul_assoc]

/-- The floor of a number of the format is one. -/
theorem representable_floor (representable : Representable .binary64 v) :
    Representable .binary64 (⌊v⌋ : ℤ) := by
  obtain ⟨m, e, least, fits, rfl⟩ := representable
  rw [← floorScaled_eq]
  unfold floorScaled
  split_ifs with nonneg
  · refine ⟨m, e, least, fits, ?_⟩
    obtain ⟨k, rfl⟩ := Int.eq_ofNat_of_zero_le nonneg
    simp
  · -- a floor below the point is no larger than the mantissa
    refine ⟨m / Nat.pow 2 (-e).toNat, 0, by decide, ?_, by simp⟩
    exact (Int.abs_ediv_le_abs _ _).trans_lt fits

/-- A number between zero and one, scaled by a power of two and floored. -/
theorem floor_mul_two_pow_between (nonneg : 0 ≤ v) (le_one : v ≤ 1) (k : Nat) :
    0 ≤ ⌊v * 2 ^ k⌋ ∧ ⌊v * 2 ^ k⌋ ≤ 2 ^ k := by
  have scale : (0 : ℚ) < 2 ^ k := pow_pos two_pos k
  refine ⟨Int.floor_nonneg.mpr (mul_nonneg nonneg scale.le), ?_⟩
  have floored := (Int.floor_le (v * 2 ^ k)).trans (mul_le_of_le_one_left scale.le le_one)
  exact_mod_cast floored

/-- An integer of the format stays in it when it is scaled down. -/
theorem representable_intCast_div_two_pow {n : ℤ} (representable : Representable .binary64 n)
    {k : Nat} (few : k ≤ 1000) : Representable .binary64 (n / 2 ^ k) := by
  obtain ⟨m, e, -, fits, number⟩ := representable
  rcases lt_or_ge e 0 with below | nonneg
  · -- an integer whose last place is below the point is no larger than its mantissa
    have place : (2 : ℚ) ^ e ≤ 1 := zpow_le_one_of_nonpos₀ one_le_two below.le
    have place_pos : (0 : ℚ) < 2 ^ e := zpow_pos two_pos e
    have magnitude : |(n : ℚ)| ≤ |(m : ℚ)| := by
      rw [number, abs_mul, abs_of_pos place_pos]
      exact mul_le_of_le_one_right (abs_nonneg _) place
    have integers : |n| ≤ |m| := by exact_mod_cast magnitude
    exact representable_div_two_pow (integers.trans_lt fits) few
  · have least : Format.binary64.minExponent ≤ -1000 := by decide
    refine ⟨m, e - k, by omega, fits, ?_⟩
    rw [number, zpow_sub₀ two_ne_zero, zpow_natCast, mul_div_assoc]

/-- Scaling a number up by a power of two rounds nothing, short of the infinities. -/
theorem rounded_mul_two_pow (representable : Representable .binary64 v) (k : Nat) :
    rounded (v * 2 ^ k) = max (-limit) (min limit (v * 2 ^ k)) := by
  rw [rounded, Rounding.rounded, Rounding.nearest_eq _ (representable_mul_two_pow representable k)]

theorem lift_mul_two_pow {u : ℚ} (at_u : level x = u) (k : Nat) :
    lift (· * 2 ^ k) (level x) = (max (-limit) (min limit (u * 2 ^ k)) : ℚ) := by
  have positive := Rounding.limit_pos .binary64
  have scale : (1 : ℚ) ≤ 2 ^ k := one_le_pow₀ one_le_two
  have grows : limit ≤ limit * 2 ^ k := le_mul_of_one_le_right positive.le scale
  rcases level_cases x with nan | bottom | top | ⟨v, value, at_v, below⟩
  · rw [nan] at at_u
    cases at_u
  · obtain rfl : u = -limit := WithBot.coe_inj.mp (at_u.symm.trans bottom)
    have falls : -limit * 2 ^ k ≤ -limit := by
      rw [neg_mul]
      exact neg_le_neg grows
    rw [bottom, lift, WithBot.map_coe, if_pos le_rfl, max_eq_left ((min_le_right _ _).trans falls)]
  · obtain rfl : u = limit := WithBot.coe_inj.mp (at_u.symm.trans top)
    rw [top, lift, WithBot.map_coe, if_neg (by linarith), if_pos le_rfl, min_eq_left grows,
      max_eq_right (by linarith)]
  · obtain rfl : u = v := WithBot.coe_inj.mp (at_u.symm.trans at_v)
    rw [at_u, lift_of_abs_lt _ below, rounded_mul_two_pow (representable value)]

/-- Where a result is a number of the format, it is computed exactly. -/
theorem value?_of_representable (at_v : level x = rounded v)
    (representable : Representable .binary64 v) (below : |v| < limit) : value? x = some v := by
  rw [rounded, Rounding.rounded_eq representable below] at at_v
  exact value?_of_level at_v below

theorem lt_limit_of_le_two_pow (le : |v| ≤ 2 ^ 64) : |v| < limit :=
  le.trans_lt two_pow_lt_limit

theorem abs_div_two_pow_le {n : ℤ} (fits : |n| < 2 ^ 53) (k : Nat) :
    |(n / 2 ^ k : ℚ)| ≤ 2 ^ 64 := by
  have magnitude : |(n : ℚ)| < 2 ^ 53 := by exact_mod_cast fits
  have scale : (1 : ℚ) ≤ 2 ^ k := one_le_pow₀ one_le_two
  have positive : (0 : ℚ) < 2 ^ k := pow_pos two_pos k
  rw [abs_div, abs_of_pos positive]
  calc |(n : ℚ)| / 2 ^ k ≤ |(n : ℚ)| := div_le_self (abs_nonneg _) scale
    _ ≤ 2 ^ 64 := by linarith

theorem abs_rounded_le_two_pow (le : |v| ≤ 2 ^ 64) : |rounded v| ≤ 2 ^ 64 := by
  have fits : Representable .binary64 (2 ^ 64) := ⟨1, 64, by decide, by decide, by norm_num⟩
  have small : |(2 ^ 64 : ℚ)| < limit := lt_limit_of_le_two_pow (by norm_num)
  have stays : rounded (2 ^ 64) = 2 ^ 64 := Rounding.rounded_eq fits small
  have below := Rounding.rounded_mono .binary64 (abs_le.mp le).2
  have above := Rounding.rounded_mono .binary64 (neg_le.mp (abs_le.mp le).1)
  rw [Rounding.rounded_neg] at above
  exact abs_le.mpr ⟨by linarith, by linarith⟩

/-- Results far below the limit are numbers. -/
theorem value?_of_abs_le (at_v : level x = rounded v) (le : |v| ≤ 2 ^ 64) :
    value? x = some (rounded v) :=
  value?_of_level at_v (lt_limit_of_le_two_pow (abs_rounded_le_two_pow le))

/-- Far below the limit, a result is a number, and rounding has moved it little. -/
theorem exists_value?_of_level (at_v : level x = rounded v) (nonneg : 0 ≤ v) (le : v ≤ 2 ^ 64) :
    ∃ w, value? x = some w ∧ 0 ≤ w ∧ |w - v| ≤ v / 2 ^ 53 + 1 / 2 ^ 200 :=
  ⟨rounded v, value?_of_abs_le at_v (by rwa [abs_of_nonneg nonneg]), rounded_nonneg nonneg,
    abs_rounded_sub_le_of_le_two_pow nonneg le⟩

/-- Integers of at most 53 bits are floats. -/
theorem value?_ofInt {n : ℤ} (fits : |n| < 2 ^ 53) : value? (ofInt n) = some (n : ℚ) := by
  have exact := representable_div_two_pow fits (Nat.zero_le 1000)
  have below := lt_limit_of_le_two_pow (abs_div_two_pow_le fits 0)
  rw [pow_zero, div_one] at exact below
  exact value?_of_representable (level_ofInt n) exact below

/-- Natural numbers up to 2 ^ 53 are floats. -/
theorem value?_ofNat_of_le {k : Nat} (le : k ≤ 2 ^ 53) : value? (ofNat k) = some (k : ℚ) := by
  have small : |(k : ℤ)| ≤ 2 ^ 53 := by
    rw [abs_of_nonneg] <;> omega
  have below : |(k : ℚ)| < limit := by
    have magnitude : |(k : ℚ)| ≤ 2 ^ 53 := by exact_mod_cast small
    exact lt_limit_of_le_two_pow (by linarith)
  exact value?_of_representable (level_ofNat k) (representable_intCast small) below

theorem value?_zero : value? 0 = some 0 := rfl

theorem value?_one : value? 1 = some 1 := by
  have one : (1 : Float) = ofInt 1 := rfl
  have at_one := value?_ofInt (show |(1 : ℤ)| < 2 ^ 53 by norm_num)
  rwa [Int.cast_one, ← one] at at_one

theorem value?_neg (at_v : value? x = some v) : value? (-x) = some (-v) := by
  apply value?_of_level (level_neg (level_of_value? at_v))
  rw [abs_neg]
  exact abs_lt_limit at_v

theorem level_sub_self (at_v : value? x = some v) : level (x - x) = (0 : ℚ) := by
  rw [level_sub at_v at_v, sub_self, rounded, Rounding.rounded_zero]

/-- A number whose last place is not below the given one is a multiple of it. -/
theorem exists_units {m e place : ℤ} (le : place ≤ e) :
    ∃ units : ℤ, (m : ℚ) * 2 ^ e = units * 2 ^ place := by
  obtain ⟨k, shift⟩ := Int.eq_ofNat_of_zero_le (Int.sub_nonneg_of_le le)
  have exponent : e = k + place := by omega
  refine ⟨m * 2 ^ k, ?_⟩
  push_cast
  rw [exponent, zpow_add₀ two_ne_zero, zpow_natCast, mul_assoc]

/-- The float after a power of two is larger by one part in 2 ^ 52. -/
theorem two_pow_mul_le_of_lt {B : Nat} (representable : Representable .binary64 v)
    (above : 2 ^ B < v) : 2 ^ B * (1 + 1 / 2 ^ 52) ≤ v := by
  obtain ⟨m, e, -, fits, rfl⟩ := representable
  have bits : Format.binary64.mantissaBits = 53 := rfl
  rw [bits] at fits
  have magnitude : (m : ℚ) < 2 ^ 53 := by exact_mod_cast (abs_lt.mp fits).2
  rcases lt_or_ge e (B - 52) with low | high
  · -- so small a last place leaves no number above the power of two
    have place : (2 : ℚ) ^ e ≤ 2 ^ ((B : ℤ) - 53) := zpow_le_zpow_right₀ one_le_two (by omega)
    have place_pos : (0 : ℚ) < 2 ^ e := zpow_pos two_pos e
    have below : (m : ℚ) * 2 ^ e < 2 ^ B :=
      calc (m : ℚ) * 2 ^ e < 2 ^ 53 * 2 ^ e := mul_lt_mul_of_pos_right magnitude place_pos
        _ ≤ 2 ^ 53 * 2 ^ ((B : ℤ) - 53) := mul_le_mul_of_nonneg_left place (by positivity)
        _ = 2 ^ B := by
          rw [← zpow_natCast, ← zpow_natCast, ← zpow_add₀ two_ne_zero]
          congr 1
          omega
    exact absurd above below.not_gt
  · obtain ⟨units, number⟩ := exists_units (m := m) (show (B : ℤ) - 52 ≤ e by omega)
    have unit_pos : (0 : ℚ) < 2 ^ ((B : ℤ) - 52) := zpow_pos two_pos _
    have power : (2 : ℚ) ^ B = 2 ^ 52 * 2 ^ ((B : ℤ) - 52) := by
      rw [← zpow_natCast, ← zpow_natCast, ← zpow_add₀ two_ne_zero]
      congr 1
      omega
    rw [power, number] at above
    have more : 2 ^ 52 < units := by exact_mod_cast lt_of_mul_lt_mul_right above unit_pos.le
    have next : (2 ^ 52 + 1 : ℚ) ≤ units := by exact_mod_cast more
    have scaled := mul_le_mul_of_nonneg_right next unit_pos.le
    rw [power, number]
    linarith

/-- The float before one is smaller by one part in 2 ^ 53. -/
theorem le_one_sub_of_lt (representable : Representable .binary64 v) (below : v < 1) :
    v ≤ 1 - 1 / 2 ^ 53 := by
  obtain ⟨m, e, -, fits, rfl⟩ := representable
  have bits : Format.binary64.mantissaBits = 53 := rfl
  rw [bits] at fits
  have last : (1 - 1 / 2 ^ 53 : ℚ) = (2 ^ 53 - 1) * 2 ^ (-53 : ℤ) := by norm_num
  rw [last]
  rcases le_or_gt e (-53) with low | high
  · have magnitude : (m : ℚ) ≤ 2 ^ 53 - 1 := by
      exact_mod_cast Int.le_sub_one_of_lt (abs_lt.mp fits).2
    have place : (2 : ℚ) ^ e ≤ 2 ^ (-53 : ℤ) := zpow_le_zpow_right₀ one_le_two low
    exact mul_le_mul magnitude place (zpow_pos two_pos e).le (by norm_num)
  · obtain ⟨units, number⟩ := exists_units (m := m) high.le
    have unit_pos : (0 : ℚ) < 2 ^ (-53 : ℤ) := zpow_pos two_pos _
    have one : (1 : ℚ) = 2 ^ 53 * 2 ^ (-53 : ℤ) := by norm_num
    rw [number, one] at below
    have fewer : units < 2 ^ 53 := by exact_mod_cast lt_of_mul_lt_mul_right below unit_pos.le
    have previous : (units : ℚ) ≤ 2 ^ 53 - 1 := by exact_mod_cast Int.le_sub_one_of_lt fewer
    rw [number]
    exact mul_le_mul_of_nonneg_right previous unit_pos.le

/-- A number is moved to the nearer limit where it is outside. -/
theorem level_clamp (at_lo : value? lo = some a) (at_hi : value? hi = some b) (ordered : a ≤ b)
    (number : level x ≠ ⊥) : level (clamp lo hi x) = max (a : WithBot ℚ) (min b (level x)) := by
  have lo_level := level_of_value? at_lo
  have hi_level := level_of_value? at_hi
  unfold clamp
  split_ifs with below above
  · have le : level x ≤ a := lo_level ▸ (lt_iff.mp below).2.le
    rw [lo_level, max_eq_left ((min_le_right _ _).trans le)]
  · have le : (b : WithBot ℚ) ≤ level x := hi_level ▸ (lt_iff.mp above).2.le
    rw [hi_level, min_eq_left le, max_eq_right (WithBot.coe_le_coe.mpr ordered)]
  · rw [lt_iff, not_and, lo_level] at below
    rw [lt_iff, not_and, hi_level] at above
    have le_x : (a : WithBot ℚ) ≤ level x := not_lt.mp (below number)
    have x_le : level x ≤ b := not_lt.mp (above WithBot.coe_ne_bot)
    rw [min_eq_right x_le, max_eq_right le_x]

/-- Limits that are floats leave a float between them. -/
theorem exists_value?_clamp (at_lo : value? lo = some a) (at_hi : value? hi = some b)
    (ordered : a ≤ b) (number : level x ≠ ⊥) :
    ∃ v, value? (clamp lo hi x) = some v ∧ (v : WithBot ℚ) = max (a : WithBot ℚ) (min b (level x)) ∧
      a ≤ v ∧ v ≤ b := by
  have clamped := level_clamp at_lo at_hi ordered number
  obtain ⟨c, at_c⟩ := WithBot.ne_bot_iff_exists.mp number
  rw [← at_c, ← WithBot.coe_min, ← WithBot.coe_max] at clamped
  have lower : a ≤ max a (min b c) := le_max_left _ _
  have upper : max a (min b c) ≤ b := max_le ordered (min_le_left _ _)
  have a_below := abs_lt.mp (abs_lt_limit at_lo)
  have b_below := abs_lt.mp (abs_lt_limit at_hi)
  have below : |max a (min b c)| < limit := abs_lt.mpr ⟨by linarith, by linarith⟩
  refine ⟨_, value?_of_level clamped below, ?_, lower, upper⟩
  rw [← at_c, ← WithBot.coe_min, ← WithBot.coe_max]

end FixedPointNet.Binary64
