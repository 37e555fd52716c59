import Mathlib

/-!
# Rounding to the nearest number of a format

A rational number is rounded to a format by rounding its multiple of the last place to an integer,
ties to even. The last place depends on the magnitude of the number; below a least exponent it does
not shrink any more. Rounding is monotone, changes sign with its argument and leaves the numbers of
the format as they are. The exponents of a format have no upper limit here.
-/

namespace FixedPointNet.Rounding

open Float.Model (Format)

/-- An integer at most one half away, which is even where another one is as near. -/
structure IsNearest (x : ℚ) (n : ℤ) : Prop where
  distance : |x - n| ≤ 1 / 2
  even_of_tie : |x - n| = 1 / 2 → Even n

namespace IsNearest

variable {x y : ℚ} {m n : ℤ}

theorem le_of_le (nearest_x : IsNearest x m) (nearest_y : IsNearest y n) (le : x ≤ y) : m ≤ n := by
  by_contra! lt
  have step : (n : ℚ) + 1 ≤ m := by exact_mod_cast lt
  have x_near := abs_le.mp nearest_x.distance
  have y_near := abs_le.mp nearest_y.distance
  -- two numbers in the wrong order leave no room: both are ties, and neighbours are not both even
  have m_even : Even m := nearest_x.even_of_tie (by rw [abs_eq (by norm_num)]; right; linarith)
  have n_even : Even n := nearest_y.even_of_tie (by rw [abs_eq (by norm_num)]; left; linarith)
  have next : (m : ℚ) = n + 1 := by linarith
  have next' : m = n + 1 := by exact_mod_cast next
  rw [next', Int.even_add_one] at m_even
  exact m_even n_even

theorem eq (nearest_m : IsNearest x m) (nearest_n : IsNearest x n) : m = n :=
  le_antisymm (nearest_m.le_of_le nearest_n le_rfl) (nearest_n.le_of_le nearest_m le_rfl)

theorem neg (nearest_x : IsNearest x m) : IsNearest (-x) (-m) := by
  have mirrored : |-x - ((-m : ℤ) : ℚ)| = |x - m| := by
    rw [Int.cast_neg, ← neg_sub', abs_neg]
  constructor
  · rw [mirrored]
    exact nearest_x.distance
  · rw [mirrored, even_neg]
    exact nearest_x.even_of_tie

theorem intCast (n : ℤ) : IsNearest n n := by
  constructor <;> norm_num

end IsNearest

/-- The nearest integer, ties to even. -/
def nearestEven (x : ℚ) : ℤ :=
  if Int.fract x < 1 / 2 then ⌊x⌋
  else if 1 / 2 < Int.fract x then ⌊x⌋ + 1
  else ⌊x⌋ + ⌊x⌋ % 2

theorem isNearest_nearestEven (x : ℚ) : IsNearest x (nearestEven x) := by
  have whole := Int.floor_add_fract x
  have fract_nonneg := Int.fract_nonneg x
  have fract_lt := Int.fract_lt_one x
  unfold nearestEven
  split_ifs with low high
  · have distance : x - (⌊x⌋ : ℤ) = Int.fract x := by linarith
    rw [← abs_of_nonneg fract_nonneg, ← distance] at low
    exact ⟨low.le, fun tie => absurd tie low.ne⟩
  · have distance : |x - ((⌊x⌋ + 1 : ℤ) : ℚ)| < 1 / 2 := by
      rw [abs_lt]
      push_cast
      constructor <;> linarith
    exact ⟨distance.le, fun tie => absurd tie distance.ne⟩
  · have tie : Int.fract x = 1 / 2 := le_antisymm (not_lt.mp high) (not_lt.mp low)
    refine ⟨?_, fun _ => by rw [Int.even_iff]; omega⟩
    rcases Int.emod_two_eq_zero_or_one ⌊x⌋ with even | odd
    · rw [even, abs_le]
      push_cast
      constructor <;> linarith
    · rw [odd, abs_le]
      push_cast
      constructor <;> linarith

theorem nearestEven_eq {x : ℚ} {n : ℤ} (nearest : IsNearest x n) : nearestEven x = n :=
  (isNearest_nearestEven x).eq nearest

@[simp] theorem nearestEven_intCast (n : ℤ) : nearestEven n = n :=
  nearestEven_eq (.intCast n)

theorem nearestEven_neg (x : ℚ) : nearestEven (-x) = -nearestEven x :=
  nearestEven_eq (isNearest_nearestEven x).neg

theorem nearestEven_mono {x y : ℚ} (le : x ≤ y) : nearestEven x ≤ nearestEven y :=
  (isNearest_nearestEven x).le_of_le (isNearest_nearestEven y) le

theorem nearestEven_le {x : ℚ} {n : ℤ} (le : x ≤ n) : nearestEven x ≤ n := by
  simpa using nearestEven_mono le

theorem le_nearestEven {x : ℚ} {n : ℤ} (le : n ≤ x) : n ≤ nearestEven x := by
  simpa using nearestEven_mono le

/-- An even integer is rounded to from as little as one half below it, and from no further. -/
theorem nearestEven_lt_iff {x : ℚ} {n : ℤ} (even : Even n) : nearestEven x < n ↔ x < n - 1 / 2 := by
  have tie : IsNearest (n - 1 / 2) n := by
    have distance : |(n - 1 / 2 : ℚ) - n| = 1 / 2 := by
      rw [abs_eq (by norm_num)]
      right
      ring
    exact ⟨distance.le, fun _ => even⟩
  constructor
  · intro below
    by_contra! le
    exact absurd ((nearestEven_eq tie).ge.trans (nearestEven_mono le)) below.not_ge
  · intro below
    have near := (abs_le.mp (isNearest_nearestEven x).distance).1
    have less : (nearestEven x : ℚ) < n := by linarith
    exact_mod_cast less

section Format

variable (spec : Format)

/-- The exponent of the last place of a number in a format. -/
def placeExponent (x : ℚ) : ℤ :=
  spec.targetExponent (Int.log 2 |x| + 1)

/-- The nearest number with the precision of a format. -/
def nearest (x : ℚ) : ℚ :=
  nearestEven (x / 2 ^ placeExponent spec x) * 2 ^ placeExponent spec x

/-- A number fits the precision of a format and is a multiple of its least place. -/
def Representable (x : ℚ) : Prop :=
  ∃ m e : ℤ, spec.minExponent ≤ e ∧ |m| < 2 ^ spec.mantissaBits ∧ x = m * 2 ^ e

theorem two_le_mantissaBits : 2 ≤ spec.mantissaBits := by
  have := spec.hm
  unfold Format.mantissaBits
  omega

/-- No number has more places than the mantissa. -/
theorem abs_lt_place (x : ℚ) : |x| < 2 ^ (placeExponent spec x + spec.mantissaBits) := by
  have bound : |x| < 2 ^ (Int.log 2 |x| + 1) := Int.lt_zpow_succ_log_self one_lt_two _
  refine bound.trans_le (zpow_le_zpow_right₀ one_le_two ?_)
  rw [placeExponent, Format.targetExponent]
  omega

/-- Above the least place, a number has as many places as the mantissa. -/
theorem place_le_abs {x : ℚ} (nonzero : x ≠ 0)
    (above : placeExponent spec x ≠ spec.minExponent) :
    2 ^ (placeExponent spec x + spec.mantissaBits - 1) ≤ |x| := by
  have bound : (2 : ℚ) ^ Int.log 2 |x| ≤ |x| :=
    Int.zpow_log_le_self one_lt_two (abs_pos.mpr nonzero)
  refine le_trans (zpow_le_zpow_right₀ one_le_two ?_) bound
  rw [placeExponent, Format.targetExponent] at above ⊢
  omega

/-- Between two powers of two, all numbers have the same last place. -/
theorem placeExponent_eq {x : ℚ} {e : ℤ} (low : 2 ^ e ≤ x) (high : x < 2 ^ (e + 1)) :
    placeExponent spec x = spec.targetExponent (e + 1) := by
  have positive : 0 < x := (zpow_pos two_pos e).trans_le low
  have e_le : e ≤ Int.log 2 x := (Int.zpow_le_iff_le_log one_lt_two positive).mp low
  have log_lt : Int.log 2 x < e + 1 := (Int.lt_zpow_iff_log_lt one_lt_two positive).mp high
  rw [placeExponent, abs_of_pos positive, show Int.log 2 x = e by omega]

theorem minExponent_le_placeExponent (x : ℚ) : spec.minExponent ≤ placeExponent spec x :=
  le_max_right _ _

theorem nearest_neg (x : ℚ) : nearest spec (-x) = -nearest spec x := by
  rw [nearest, nearest, placeExponent, placeExponent, abs_neg, neg_div, nearestEven_neg,
    Int.cast_neg, neg_mul]

@[simp] theorem nearest_zero : nearest spec 0 = 0 := by
  have zero : nearestEven 0 = 0 := nearestEven_intCast 0
  rw [nearest, zero_div, zero, Int.cast_zero, zero_mul]

/-- Multiples of a place are rounded to themselves at that place. -/
theorem nearestEven_place {q e : ℤ} (le : q ≤ e) (n : ℤ) :
    (nearestEven (n * 2 ^ e / 2 ^ q) * 2 ^ q : ℚ) = n * 2 ^ e := by
  obtain ⟨k, rfl⟩ := Int.exists_add_of_le le
  have positive : (2 : ℚ) ^ q ≠ 0 := zpow_ne_zero q two_ne_zero
  have whole : (n * 2 ^ (q + k) / 2 ^ q : ℚ) = ((n * 2 ^ k : ℤ) : ℚ) := by
    rw [zpow_add₀ two_ne_zero, zpow_natCast]
    push_cast
    field_simp
  rw [whole, nearestEven_intCast, ← whole, div_mul_cancel₀ _ positive]

/-- Rounding at a place does not pass over a multiple of the place. -/
theorem nearestEven_place_mono {x y : ℚ} (q : ℤ) (le : x ≤ y) :
    (nearestEven (x / 2 ^ q) * 2 ^ q : ℚ) ≤ nearestEven (y / 2 ^ q) * 2 ^ q := by
  have positive : (0 : ℚ) < 2 ^ q := zpow_pos two_pos q
  have divided : x / 2 ^ q ≤ y / 2 ^ q := div_le_div_of_nonneg_right le positive.le
  have rounded : (nearestEven (x / 2 ^ q) : ℚ) ≤ nearestEven (y / 2 ^ q) := by
    exact_mod_cast nearestEven_mono divided
  exact mul_le_mul_of_nonneg_right rounded positive.le

theorem nearest_nonneg {x : ℚ} (nonneg : 0 ≤ x) : 0 ≤ nearest spec x := by
  have rounded := nearestEven_place_mono (placeExponent spec x) nonneg
  have zero : nearestEven 0 = 0 := nearestEven_intCast 0
  rwa [zero_div, zero, Int.cast_zero, zero_mul] at rounded

theorem nearest_mono_of_pos {x y : ℚ} (pos : 0 < x) (le : x ≤ y) :
    nearest spec x ≤ nearest spec y := by
  have y_pos : 0 < y := pos.trans_le le
  have log_le : Int.log 2 x ≤ Int.log 2 y := Int.log_mono_right pos le
  have two_le := two_le_mantissaBits spec
  rcases eq_or_ne (placeExponent spec x) (placeExponent spec y) with same | different
  · rw [nearest, nearest, same]
    exact nearestEven_place_mono _ le
  · -- at different places, a power of two stands between the two numbers and is a multiple of both
    simp only [placeExponent, Format.targetExponent, abs_of_pos pos, abs_of_pos y_pos] at different
    have x_le : x ≤ 2 ^ Int.log 2 y := by
      have bound : x < 2 ^ (Int.log 2 x + 1) := Int.lt_zpow_succ_log_self one_lt_two x
      exact bound.le.trans (zpow_le_zpow_right₀ one_le_two (by omega))
    have le_y : (2 : ℚ) ^ Int.log 2 y ≤ y := Int.zpow_log_le_self one_lt_two y_pos
    have x_place : placeExponent spec x ≤ Int.log 2 y := by
      rw [placeExponent, Format.targetExponent, abs_of_pos pos]
      omega
    have y_place : placeExponent spec y ≤ Int.log 2 y := by
      rw [placeExponent, Format.targetExponent, abs_of_pos y_pos]
      omega
    have up := nearestEven_place_mono (placeExponent spec x) x_le
    have down := nearestEven_place_mono (placeExponent spec y) le_y
    have at_x := nearestEven_place x_place 1
    have at_y := nearestEven_place y_place 1
    rw [Int.cast_one, one_mul] at at_x at_y
    rw [at_x] at up
    rw [at_y] at down
    exact up.trans down

theorem nearest_mono : Monotone (nearest spec) := by
  intro x y le
  rcases lt_or_ge 0 x with pos | nonpos
  · exact nearest_mono_of_pos spec pos le
  · rcases lt_or_ge y 0 with neg | nonneg
    · rw [← neg_le_neg_iff, ← nearest_neg, ← nearest_neg]
      exact nearest_mono_of_pos spec (neg_pos.mpr neg) (neg_le_neg le)
    · have x_side := nearest_nonneg spec (neg_nonneg.mpr nonpos)
      rw [nearest_neg, neg_nonneg] at x_side
      exact x_side.trans (nearest_nonneg spec nonneg)

theorem nearest_eq {x : ℚ} (representable : Representable spec x) : nearest spec x = x := by
  obtain ⟨m, e, least, fits, rfl⟩ := representable
  rcases eq_or_ne m 0 with rfl | nonzero
  · simp
  · apply nearestEven_place
    have positive : 0 < |(m * 2 ^ e : ℚ)| :=
      abs_pos.mpr (mul_ne_zero (Int.cast_ne_zero.mpr nonzero) (zpow_ne_zero e two_ne_zero))
    have below : |(m * 2 ^ e : ℚ)| < 2 ^ ((spec.mantissaBits : ℤ) + e) := by
      have scale : (0 : ℚ) < 2 ^ e := zpow_pos two_pos e
      have fits' : |(m : ℚ)| < 2 ^ spec.mantissaBits := by exact_mod_cast fits
      rw [abs_mul, abs_of_pos scale, zpow_add₀ two_ne_zero, zpow_natCast]
      exact mul_lt_mul_of_pos_right fits' scale
    have log_lt := (Int.lt_zpow_iff_log_lt one_lt_two positive).mp below
    rw [placeExponent, Format.targetExponent]
    omega

/-- A number with a last place below one is rounded to below an integer from further than half of
    that place. -/
theorem nearest_lt_natCast_iff {x : ℚ} {c k : ℕ}
    (place : placeExponent spec x = -((c + 1 : ℕ) : ℤ)) :
    nearest spec x < k ↔ 1 / 2 / 2 ^ (c + 1) < k - x := by
  have unit_pos : (0 : ℚ) < 2 ^ (c + 1) := pow_pos two_pos _
  have whole : Even ((k * 2 ^ (c + 1) : ℕ) : ℤ) := by
    rw [Int.even_coe_nat, Nat.pow_succ, ← mul_assoc]
    exact even_two.mul_left _
  have even := nearestEven_lt_iff (x := x * 2 ^ (c + 1)) whole
  have integers : (nearestEven (x * 2 ^ (c + 1)) : ℚ) < k * 2 ^ (c + 1) ↔
      nearestEven (x * 2 ^ (c + 1)) < (k * 2 ^ (c + 1) : ℕ) := by
    exact_mod_cast Iff.rfl
  rw [nearest, place, zpow_neg, zpow_natCast, div_inv_eq_mul, ← div_eq_mul_inv,
    div_lt_iff₀ unit_pos, div_lt_iff₀ unit_pos, integers, even]
  push_cast
  constructor <;> intro <;> linarith

end Format

end FixedPointNet.Rounding
