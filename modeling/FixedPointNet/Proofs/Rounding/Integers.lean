import FixedPointNet.Proofs.Rounding.Nearest

/-!
# Rounding integers

An integer is rounded to a number of significant bits by rounding it at the place of the lowest of
them, ties to even. A format that reaches down to one rounds integers in this way.
-/

namespace FixedPointNet.Rounding

open Float.Model (Format)

/-- How many bits an integer has beyond the given number. -/
def excessBits (bits : Nat) (n : ℤ) : Nat :=
  n.natAbs.log2 + 1 - bits

/-- The integer nearest to another among those of the given number of significant bits, ties to the
    even significand. -/
def nearestInteger (bits : Nat) (n : ℤ) : ℤ :=
  nearestEven (n / 2 ^ excessBits bits n) * 2 ^ excessBits bits n

variable {bits : Nat} {m n : ℤ} {x : ℚ} {spec : Format}

/-- No integer is nearer than a nearest one. -/
theorem IsNearest.distance_le (nearest : IsNearest x n) (m : ℤ) : |x - n| ≤ |x - m| := by
  by_cases same : n = m
  · rw [same]
  · have apart : (1 : ℚ) ≤ |(m : ℚ) - n| := by
      have integers : 1 ≤ |m - n| := Int.one_le_abs (sub_ne_zero.mpr (Ne.symm same))
      exact_mod_cast integers
    have through := abs_sub_le (m : ℚ) x n
    have near := nearest.distance
    rw [abs_sub_comm (m : ℚ) x] at through
    linarith

theorem abs_lt_two_pow_add_excess (bits : Nat) (n : ℤ) :
    |n| < 2 ^ (bits + excessBits bits n) := by
  have bound : n.natAbs < 2 ^ (n.natAbs.log2 + 1) := Nat.lt_log2_self
  have exponents : n.natAbs.log2 + 1 ≤ bits + excessBits bits n := by
    rw [excessBits]
    omega
  rw [Int.abs_eq_natAbs]
  exact_mod_cast bound.trans_le (Nat.pow_le_pow_right two_pos exponents)

theorem two_pow_add_excess_le (positive : 0 < bits) (more : excessBits bits n ≠ 0) :
    2 ^ (bits - 1) * 2 ^ excessBits bits n ≤ |n| := by
  have exponents : bits - 1 + excessBits bits n = n.natAbs.log2 := by
    rw [excessBits] at more ⊢
    omega
  have nonzero : n.natAbs ≠ 0 := by
    intro zero
    rw [zero, Nat.log2_zero] at exponents
    omega
  rw [← pow_add, exponents, Int.abs_eq_natAbs]
  exact_mod_cast Nat.log2_self_le nonzero

theorem abs_sub_nearestInteger_le_of_multiple (n j : ℤ) :
    |n - nearestInteger bits n| ≤ |n - j * 2 ^ excessBits bits n| := by
  have scale : (0 : ℚ) < 2 ^ excessBits bits n := pow_pos two_pos _
  have scaled (i : ℤ) : (n - i * 2 ^ excessBits bits n : ℚ) =
      (n / 2 ^ excessBits bits n - i) * 2 ^ excessBits bits n := by
    rw [sub_mul, div_mul_cancel₀ _ scale.ne']
  have near := mul_le_mul_of_nonneg_right
    ((isNearest_nearestEven (n / 2 ^ excessBits bits n)).distance_le j) scale.le
  rw [← abs_of_pos scale, ← abs_mul, ← abs_mul, abs_of_pos scale, ← scaled, ← scaled] at near
  rw [nearestInteger]
  exact_mod_cast near

/-- No integer of as many significant bits is nearer. -/
theorem abs_sub_nearestInteger_le (positive : 0 < bits) (fits : |m| < 2 ^ bits) (e : ℕ) :
    |n - nearestInteger bits n| ≤ |n - m * 2 ^ e| := by
  by_cases few : excessBits bits n = 0
  · simp [nearestInteger, few]
  rcases le_or_gt (excessBits bits n) e with multiple | finer
  · have split : m * 2 ^ e = m * 2 ^ (e - excessBits bits n) * 2 ^ excessBits bits n := by
      rw [mul_assoc, ← pow_add, Nat.sub_add_cancel multiple]
    rw [split]
    exact abs_sub_nearestInteger_le_of_multiple n _
  · -- a finer integer is no larger than the power of two below `n`, which is a multiple
    have low := two_pow_add_excess_le positive few
    have magnitude : |m * 2 ^ e| ≤ 2 ^ (bits - 1) * 2 ^ excessBits bits n := by
      have places : (2 : ℤ) ^ e ≤ 2 ^ (excessBits bits n - 1) :=
        pow_le_pow_right₀ one_le_two (by omega)
      have powers : (2 : ℤ) ^ bits * 2 ^ (excessBits bits n - 1) =
          2 ^ (bits - 1) * 2 ^ excessBits bits n := by
        rw [← pow_add, ← pow_add]
        congr 1
        omega
      rw [abs_mul, abs_of_pos (pow_pos (two_pos : (0 : ℤ) < 2) e), ← powers]
      exact mul_le_mul fits.le places (by positivity) (by positivity)
    rw [abs_le] at magnitude
    rcases le_total 0 n with nonneg | nonpos
    · rw [abs_of_nonneg nonneg] at low
      refine (abs_sub_nearestInteger_le_of_multiple n (2 ^ (bits - 1))).trans ?_
      rw [abs_of_nonneg (by omega)]
      exact (by omega : _ ≤ n - m * 2 ^ e).trans (le_abs_self _)
    · rw [abs_of_nonpos nonpos] at low
      refine (abs_sub_nearestInteger_le_of_multiple n (-2 ^ (bits - 1))).trans ?_
      rw [neg_mul, abs_of_nonpos (by omega)]
      exact (by omega : _ ≤ -(n - m * 2 ^ e)).trans (neg_le_abs _)

theorem placeExponent_intCast (n : ℤ) :
    placeExponent spec n = spec.targetExponent (n.natAbs.log2 + 1) := by
  have magnitude : |(n : ℚ)| = (n.natAbs : ℚ) := by
    rw [Nat.cast_natAbs, Int.cast_abs]
  rw [placeExponent, magnitude, Int.log_natCast, Nat.log2_eq_log_two]

/-- A format that reaches down to one rounds an integer to its significant bits. -/
theorem nearest_intCast (reaches : spec.minExponent ≤ 0) (n : ℤ) :
    nearest spec n = nearestInteger spec.mantissaBits n := by
  have place : placeExponent spec n = _ := placeExponent_intCast n
  rw [Format.targetExponent] at place
  by_cases few : excessBits spec.mantissaBits n = 0
  · have below : placeExponent spec n ≤ 0 := by
      rw [excessBits] at few
      omega
    have exact := nearestEven_place below n
    rw [zpow_zero, mul_one] at exact
    simp [nearestInteger, few, nearest, exact]
  · have at_excess : placeExponent spec n = excessBits spec.mantissaBits n := by
      rw [excessBits] at few ⊢
      omega
    rw [nearest, at_excess, zpow_natCast, nearestInteger]
    push_cast
    rfl

/-- The rounded integer has no more significant bits than asked for; a carry leaves one. -/
theorem exists_nearestInteger_eq (positive : 0 < bits) (n : ℤ) :
    ∃ (m : ℤ) (e : ℕ), |m| < 2 ^ bits ∧ nearestInteger bits n = m * 2 ^ e := by
  have scale : (0 : ℚ) < 2 ^ excessBits bits n := pow_pos two_pos _
  have quotient : |(n / 2 ^ excessBits bits n : ℚ)| ≤ (2 ^ bits : ℤ) := by
    have below : |(n : ℚ)| < 2 ^ (bits + excessBits bits n) := by
      exact_mod_cast abs_lt_two_pow_add_excess bits n
    rw [pow_add] at below
    rw [abs_div, abs_of_pos scale, div_le_iff₀ scale]
    push_cast
    exact below.le
  rw [abs_le] at quotient
  have above := nearestEven_le quotient.2
  have below := le_nearestEven (n := -2 ^ bits) (by push_cast at quotient ⊢; exact quotient.1)
  rw [nearestInteger]
  generalize nearestEven (n / 2 ^ excessBits bits n) = significand at above below
  have one_lt : (1 : ℤ) < 2 ^ bits := one_lt_pow₀ one_lt_two positive.ne'
  rcases above.lt_or_eq with less | carry
  · rcases below.lt_or_eq with greater | carry
    · exact ⟨significand, _, abs_lt.mpr ⟨greater, less⟩, rfl⟩
    · refine ⟨-1, bits + excessBits bits n, by simpa using one_lt, ?_⟩
      rw [← carry]
      ring
  · refine ⟨1, bits + excessBits bits n, by simpa using one_lt, ?_⟩
    rw [carry]
    ring

end FixedPointNet.Rounding
