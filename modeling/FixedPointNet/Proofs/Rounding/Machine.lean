import FixedPointNet.Proofs.Rounding.Nearest

/-!
# Rounding by shifts

Unpacked floats are rounded on a mantissa and two residual bits, which are shifted until the last
place is that of the format. The bits locate the exact number between two neighbours all along, so
that the mantissa is rounded to the nearest, and what comes out has the exponent that the format
asks for.
-/

namespace FixedPointNet.Rounding

open Float.Model (Format UnpackedFloat totalExponent)
open Float.Model.UnpackedFloat

variable {spec : Format} {m : Nat} {e t : ℤ} {y : ℚ} {accuracy : Accuracy}

/-- A number lies where an accuracy says between an integer and the next. -/
def Locates (m : Nat) (y : ℚ) : Accuracy → Prop
  | .exact => y = m
  | .inexact .lt => m < y ∧ y < m + 1 / 2
  | .inexact .eq => y = m + 1 / 2
  | .inexact .gt => m + 1 / 2 < y ∧ y < m + 1

namespace Locates

theorem le (located : Locates m y accuracy) : m ≤ y := by
  rcases accuracy with _ | _ | _ | _ <;> simp only [Locates] at located <;> linarith

theorem lt (located : Locates m y accuracy) : y < m + 1 := by
  rcases accuracy with _ | _ | _ | _ <;> simp only [Locates] at located <;> linarith

theorem isNearest (located : Locates m y accuracy) :
    IsNearest y (accuracy.roundToNearestEven m : Nat) := by
  rcases accuracy with _ | _ | _ | _
  · rw [Locates] at located
    rw [located]
    exact .intCast m
  · have distance : |y - ((m : ℤ) : ℚ)| < 1 / 2 := by
      rw [abs_lt, Int.cast_natCast]
      constructor <;> linarith [located.1, located.2]
    exact ⟨distance.le, fun tie => absurd tie distance.ne⟩
  · rw [Locates] at located
    refine ⟨?_, fun _ => ?_⟩
    · rw [located, Accuracy.roundToNearestEven, abs_le]
      rcases Nat.mod_two_eq_zero_or_one m with even | odd
      · rw [even]
        push_cast
        constructor <;> linarith
      · rw [odd]
        push_cast
        constructor <;> linarith
    · rw [Accuracy.roundToNearestEven, Int.even_iff]
      omega
  · have distance : |y - ((m + 1 : ℤ) : ℚ)| < 1 / 2 := by
      rw [abs_lt]
      push_cast
      constructor <;> linarith [located.1, located.2]
    exact ⟨distance.le, fun tie => absurd tie distance.ne⟩

end Locates

/-- A number lies where the residual bits of a mantissa say. -/
def Holds (em : ExtendedMantissa) (y : ℚ) : Prop :=
  Locates em.mantissa y em.accuracy

theorem Locates.holds (located : Locates m y accuracy) :
    Holds (.ofMantissaAndAccuracy m accuracy) y := by
  rcases accuracy with _ | _ | _ | _ <;> exact located

namespace Holds

variable {em : ExtendedMantissa}

theorem shiftRightOne (holds : Holds em y) : Holds em.shiftRightOne (y / 2) := by
  obtain ⟨m, roundBit, stickyBit⟩ := em
  have halves : (m : ℚ) = 2 * (m / 2 : Nat) + (m % 2 : Nat) := by
    exact_mod_cast (Nat.div_add_mod m 2).symm
  rcases Nat.mod_two_eq_zero_or_one m with even | odd
  · rw [even, Nat.cast_zero] at halves
    cases roundBit <;> cases stickyBit <;>
      simp only [Holds, ExtendedMantissa.accuracy, ExtendedMantissa.shiftRightOne, even, Locates,
        bne_self_eq_false, Bool.or_true, Bool.or_false] at holds ⊢ <;>
      first | linarith | constructor <;> linarith
  · rw [odd, Nat.cast_one] at halves
    cases roundBit <;> cases stickyBit <;>
      simp only [Holds, ExtendedMantissa.accuracy, ExtendedMantissa.shiftRightOne, odd, Locates,
        Nat.reduceBneDiff, Bool.or_true, Bool.or_false] at holds ⊢ <;>
      first | linarith | constructor <;> linarith

theorem shiftRight (holds : Holds em y) (count : Nat) : Holds (em >>> count) (y / 2 ^ count) := by
  induction count with
  | zero =>
    rw [pow_zero, div_one]
    exact holds
  | succ count ih =>
    rw [pow_succ, ← div_div]
    exact ih.shiftRightOne

theorem roundedMantissa_eq (holds : Holds em y) : (em.roundedMantissa : ℤ) = nearestEven y :=
  (nearestEven_eq holds.isNearest).symm

end Holds

theorem shiftToExponent_of_le (le : t ≤ e) :
    shiftToExponent m e accuracy t = (.ofMantissaAndAccuracy m accuracy, e) := by
  have none : (t - e).toNat = 0 := Int.toNat_of_nonpos (by omega)
  simp only [shiftToExponent, none]
  exact Prod.ext rfl (add_zero e)

theorem Locates.shiftToExponent (located : Locates m y accuracy) (le : e ≤ t) :
    Holds (shiftToExponent m e accuracy t).1 (y * 2 ^ e / 2 ^ t) ∧
      (UnpackedFloat.shiftToExponent m e accuracy t).2 = t := by
  obtain ⟨count, rfl⟩ := Int.exists_add_of_le le
  have shift : (e + count - e).toNat = count := by omega
  have scaled : y * 2 ^ e / 2 ^ (e + count : ℤ) = y / 2 ^ count := by
    rw [zpow_add₀ two_ne_zero, zpow_natCast]
    field_simp
  simp only [UnpackedFloat.shiftToExponent, shift, scaled]
  exact ⟨located.holds.shiftRight count, trivial⟩

/-- A finite float has the exponent that a format asks for. -/
def Canonical (spec : Format) : UnpackedFloat → Prop
  | .finite _ m e _ => e = spec.targetExponent (totalExponent m e)
  | _ => True

/-- A float has a sign and the magnitude of a nonnegative number, rounded to a format. -/
inductive Rounds (spec : Format) (s : Sign) (v : ℚ) : UnpackedFloat → Prop where
  | zero (vanishes : nearest spec v = 0) : Rounds spec s v (.zero s)
  | finite {m : Nat} {e : ℤ} {pos : 0 < m} (canonical : Canonical spec (.finite s m e pos))
      (magnitude : (m : ℚ) * 2 ^ e = nearest spec v) : Rounds spec s v (.finite s m e pos)

theorem zpow_log2_le (pos : 0 < m) (e : ℤ) : (2 : ℚ) ^ (m.log2 + e : ℤ) ≤ m * 2 ^ e := by
  have leading : ((2 ^ m.log2 : Nat) : ℚ) ≤ m := Nat.cast_le.mpr (Nat.log2_self_le pos.ne')
  rw [zpow_add₀ two_ne_zero, zpow_natCast]
  push_cast at leading
  exact mul_le_mul_of_nonneg_right leading (zpow_nonneg two_pos.le e)

theorem succ_mul_le_zpow_log2 (m : Nat) (e : ℤ) :
    ((m : ℚ) + 1) * 2 ^ e ≤ 2 ^ (m.log2 + 1 + e : ℤ) := by
  have above : ((m + 1 : Nat) : ℚ) ≤ (2 ^ (m.log2 + 1) : Nat) := Nat.cast_le.mpr Nat.lt_log2_self
  rw [zpow_add₀ two_ne_zero, ← Nat.cast_succ m.log2, zpow_natCast]
  push_cast at above
  exact mul_le_mul_of_nonneg_right above (zpow_nonneg two_pos.le e)

theorem mul_lt_zpow_log2 (m : Nat) (e : ℤ) : (m * 2 ^ e : ℚ) < 2 ^ (m.log2 + 1 + e : ℤ) :=
  (mul_lt_mul_of_pos_right (lt_add_one (m : ℚ)) (zpow_pos two_pos e)).trans_le
    (succ_mul_le_zpow_log2 m e)

/-- The place of a located number is the one that its mantissa calls for. -/
theorem Locates.placeExponent_eq (located : Locates m y accuracy) (pos : 0 < m) (e : ℤ) :
    placeExponent spec (y * 2 ^ e) = spec.targetExponent (totalExponent m e) := by
  have scale : (0 : ℚ) < 2 ^ e := zpow_pos two_pos e
  have y_pos : 0 < y := (Nat.cast_pos.mpr pos).trans_le located.le
  have v_pos : 0 < y * 2 ^ e := mul_pos y_pos scale
  have low : (2 : ℚ) ^ (m.log2 + e : ℤ) ≤ y * 2 ^ e :=
    (zpow_log2_le pos e).trans (mul_le_mul_of_nonneg_right located.le scale.le)
  have high : y * 2 ^ e < (2 : ℚ) ^ (m.log2 + 1 + e : ℤ) :=
    (mul_lt_mul_of_pos_right located.lt scale).trans_le (succ_mul_le_zpow_log2 m e)
  have log_ge := (Int.zpow_le_iff_le_log one_lt_two v_pos).mp low
  have log_lt := (Int.lt_zpow_iff_log_lt one_lt_two v_pos).mp high
  have log : Int.log 2 (y * 2 ^ e) = m.log2 + e := by omega
  rw [placeExponent, abs_of_pos v_pos, log, totalExponent, add_right_comm]

/-- A mantissa is shifted to the place it calls for, and vanishes if it is zero. -/
def shifted (spec : Format) (s : Sign) (r : Nat) (q : ℤ) : UnpackedFloat :=
  let last := shiftToTargetExponent spec r q .exact
  if zero : last.1.mantissa = 0 then .zero s
  else .finite s last.1.mantissa last.2 (Nat.pos_of_ne_zero zero)

variable {r : Nat} {q : ℤ} {v : ℚ}

/-- A mantissa that fits stays where it is. -/
theorem rounds_shifted_of_lt (s : Sign) (below : r < 2 ^ spec.mantissaBits)
    (least : spec.minExponent ≤ q)
    (normal : q = spec.minExponent ∨ 2 ^ (spec.mantissaBits - 1) ≤ r)
    (magnitude : (r : ℚ) * 2 ^ q = nearest spec v) : Rounds spec s v (shifted spec s r q) := by
  have two_le := two_le_mantissaBits spec
  have log : r.log2 + 1 ≤ spec.mantissaBits := by
    rcases eq_or_ne r 0 with rfl | nonzero
    · simp [Nat.log2_zero]
      omega
    · exact (Nat.log2_lt nonzero).mpr below
  have stays : spec.targetExponent (totalExponent r q) ≤ q := by
    rw [Format.targetExponent, totalExponent]
    omega
  simp only [shifted, shiftToTargetExponent, shiftToExponent_of_le stays]
  split_ifs with zero
  · have r_zero : r = 0 := zero
    rw [r_zero, Nat.cast_zero, zero_mul] at magnitude
    exact .zero magnitude.symm
  · refine .finite ?_ magnitude
    change q = spec.targetExponent (totalExponent r q)
    refine le_antisymm ?_ stays
    rcases normal with rfl | normal
    · exact le_max_right _ _
    · have nonzero : r ≠ 0 := zero
      have log_ge := (Nat.le_log2 nonzero).mpr normal
      rw [Format.targetExponent, totalExponent]
      omega

/-- A mantissa that has carried into one more place loses its last one, which is zero. -/
theorem rounds_shifted_of_carry (s : Sign) (least : spec.minExponent ≤ q)
    (magnitude : ((2 ^ spec.mantissaBits : Nat) : ℚ) * 2 ^ q = nearest spec v) :
    Rounds spec s v (shifted spec s (2 ^ spec.mantissaBits) q) := by
  have two_le := two_le_mantissaBits spec
  have next : spec.targetExponent (totalExponent (2 ^ spec.mantissaBits) q) = q + 1 := by
    rw [Format.targetExponent, totalExponent, Nat.log2_two_pow]
    omega
  have one : (q + 1 - q).toNat = 1 := by omega
  have half : 2 ^ spec.mantissaBits / 2 = 2 ^ (spec.mantissaBits - 1) := by
    have one_le : 1 ≤ spec.mantissaBits := by omega
    simpa using Nat.pow_div one_le two_pos
  have carried : shiftToTargetExponent spec (2 ^ spec.mantissaBits) q .exact =
      (⟨2 ^ (spec.mantissaBits - 1), 2 ^ spec.mantissaBits % 2 != 0, false⟩, q + 1) := by
    simp only [shiftToTargetExponent, next, shiftToExponent, one, ← half]
    rfl
  simp only [shifted, carried]
  rw [dif_neg (pow_pos two_pos _).ne']
  refine .finite ?_ ?_
  · rw [Canonical, totalExponent, Nat.log2_two_pow, Format.targetExponent]
    omega
  · rw [← magnitude, zpow_add_one₀ two_ne_zero]
    have doubled : (2 : ℚ) ^ spec.mantissaBits = 2 ^ (spec.mantissaBits - 1) * 2 := by
      rw [← pow_succ, Nat.sub_add_cancel (by omega)]
    push_cast
    rw [doubled]
    ring

theorem rounds_shifted (s : Sign) (fits : r ≤ 2 ^ spec.mantissaBits) (least : spec.minExponent ≤ q)
    (normal : q = spec.minExponent ∨ 2 ^ (spec.mantissaBits - 1) ≤ r)
    (magnitude : (r : ℚ) * 2 ^ q = nearest spec v) : Rounds spec s v (shifted spec s r q) := by
  rcases fits.lt_or_eq with below | rfl
  · exact rounds_shifted_of_lt s below least normal magnitude
  · exact rounds_shifted_of_carry s least magnitude

/-- Rounding a mantissa that has at least as many places as the format. -/
theorem Locates.roundWithAccuracy (located : Locates m y accuracy) (pos : 0 < y * 2 ^ e)
    (place : placeExponent spec (y * 2 ^ e) = spec.targetExponent (totalExponent m e))
    (le : e ≤ placeExponent spec (y * 2 ^ e)) (s : Sign) :
    Rounds spec s (y * 2 ^ e) (roundWithAccuracy spec s m e accuracy) := by
  have least := minExponent_le_placeExponent spec (y * 2 ^ e)
  have above := abs_lt_place spec (y * 2 ^ e)
  have below := place_le_abs spec pos.ne'
  obtain ⟨holds, at_place⟩ := located.shiftToExponent le
  have rounded := holds.roundedMantissa_eq
  rw [abs_of_pos pos] at above below
  unfold UnpackedFloat.roundWithAccuracy
  rw [UnpackedFloat.shiftToTargetExponent, ← place]
  simp only [at_place]
  apply rounds_shifted s
  · have bound : y * 2 ^ e / 2 ^ placeExponent spec (y * 2 ^ e) ≤
        ((2 ^ spec.mantissaBits : ℤ) : ℚ) := by
      rw [div_le_iff₀ (zpow_pos two_pos _), Int.cast_pow, Int.cast_ofNat, ← zpow_natCast,
        ← zpow_add₀ two_ne_zero, add_comm]
      exact above.le
    have fits := nearestEven_le bound
    rw [← rounded] at fits
    exact_mod_cast fits
  · exact least
  · by_cases at_least : placeExponent spec (y * 2 ^ e) = spec.minExponent
    · exact .inl at_least
    · right
      have bound : ((2 ^ (spec.mantissaBits - 1) : ℤ) : ℚ) ≤
          y * 2 ^ e / 2 ^ placeExponent spec (y * 2 ^ e) := by
        have two_le := two_le_mantissaBits spec
        have bits : ((spec.mantissaBits - 1 : Nat) : ℤ) + placeExponent spec (y * 2 ^ e) =
            placeExponent spec (y * 2 ^ e) + spec.mantissaBits - 1 := by omega
        rw [le_div_iff₀ (zpow_pos two_pos _), Int.cast_pow, Int.cast_ofNat, ← zpow_natCast,
          ← zpow_add₀ two_ne_zero, bits]
        exact below at_least
      have normal := le_nearestEven bound
      rw [← rounded] at normal
      exact_mod_cast normal
  · rw [nearest, ← rounded, Int.cast_natCast]

/-- Lowering the exponent of a mantissa keeps the number. -/
theorem decreaseExponent_spec (m : Nat) (e t : ℤ) :
    (decreaseExponent m e t).2 = min e t ∧
      ((decreaseExponent m e t).1 : ℚ) * 2 ^ min e t = m * 2 ^ e := by
  rcases le_total e t with le | le
  · have none : (e - t).toNat = 0 := Int.toNat_of_nonpos (by omega)
    simp [decreaseExponent, none, min_eq_left le]
  · obtain ⟨count, rfl⟩ := Int.exists_add_of_le le
    have shift : (t + count - t).toNat = count := by omega
    rw [min_eq_right le]
    simp only [decreaseExponent, shift, Nat.shiftLeft_eq]
    constructor
    · omega
    · rw [zpow_add₀ two_ne_zero, zpow_natCast]
      push_cast
      ring

theorem rounds_round (s : Sign) (pos : 0 < m) (e : ℤ) :
    Rounds spec s (m * 2 ^ e) (UnpackedFloat.round spec s m e) := by
  have given : Locates m m .exact := rfl
  have place : placeExponent spec (m * 2 ^ e) = spec.targetExponent (totalExponent m e) :=
    given.placeExponent_eq pos e
  have v_pos : 0 < (m : ℚ) * 2 ^ e := mul_pos (Nat.cast_pos.mpr pos) (zpow_pos two_pos e)
  unfold UnpackedFloat.round
  generalize spec.targetExponent (totalExponent m e) = t at place ⊢
  obtain ⟨lowered, same⟩ := decreaseExponent_spec m e t
  simp only [lowered]
  rw [← same] at v_pos place ⊢
  have exact : Locates (decreaseExponent m e t).1 (decreaseExponent m e t).1 .exact := rfl
  have pos' : 0 < (decreaseExponent m e t).1 :=
    Nat.cast_pos.mp ((mul_pos_iff_of_pos_right (zpow_pos two_pos _)).mp v_pos)
  apply exact.roundWithAccuracy v_pos (exact.placeExponent_eq pos' _)
  rw [place]
  exact min_le_right e t

end FixedPointNet.Rounding
