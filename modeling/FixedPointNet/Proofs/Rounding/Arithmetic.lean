import FixedPointNet.Proofs.Rounding.Level

/-!
# Arithmetic rounds the exact result

A sum, difference, product or quotient of floats is the exact result on the numbers they stand for,
rounded. The same holds of an integer multiple of a power of two.
-/

namespace FixedPointNet.Rounding

open Float.Model (Format UnpackedFloat totalExponent)
open Float.Model.UnpackedFloat

variable {spec : Format}

/-- The level of a float once it is packed. -/
def packedLevel (spec : Format) (u : UnpackedFloat) : WithBot ℚ :=
  level spec (unpack spec (pack spec u))

theorem Packed.packedLevel_eq {u : UnpackedFloat} (packed : Packed spec u) :
    packedLevel spec u = level spec u := by
  cases u with
  | infinity s => rw [packedLevel, pack, unpack_packedInfinity]
  | notANumber => rw [packedLevel, pack, unpack_packedNaN]
  | zero s => rw [packedLevel, pack, unpack_packedZero]
  | finite s m e pos => rw [packedLevel, unpack_pack_finite packed.1, if_neg (not_lt.mpr packed.2)]

@[simp] theorem packedLevel_zero (s : Sign) : packedLevel spec (.zero s) = (0 : ℚ) := by
  rw [packedLevel, pack, unpack_packedZero]
  rfl

@[simp] theorem rounded_zero : rounded spec 0 = 0 := by
  rw [rounded_of_abs_lt, nearest_zero]
  simpa using limit_pos spec

theorem neg_signed (s : Sign) (v : ℚ) : signed (-s) v = -signed s v := by
  cases s
  · exact (neg_neg v).symm
  · rfl

theorem signed_eq_apply (s : Sign) (m : Nat) : signed s m = (s.apply m : ℤ) := by
  cases s <;> simp [signed, Sign.apply]

theorem signed_mul (s : Sign) (v c : ℚ) : signed s (v * c) = signed s v * c := by
  cases s <;> simp [signed]

theorem Packed.representable {u : UnpackedFloat} {v : ℚ} (packed : Packed spec u)
    (value : value? u = some v) : Representable spec v := by
  have least := two_le_mantissaBits spec
  cases u with
  | infinity s => cases value
  | notANumber => cases value
  | zero s =>
    cases value
    exact ⟨0, spec.minExponent, le_rfl, by simp, by simp⟩
  | finite s m e pos =>
    cases value
    have canonical := packed.1
    rw [Canonical, Format.targetExponent, totalExponent] at canonical
    refine ⟨s.apply m, e, by omega, ?_, by rw [signed_mul, signed_eq_apply]⟩
    have fits : m < 2 ^ spec.mantissaBits := by
      rw [← Nat.log2_lt pos.ne']
      omega
    cases s <;> simpa [Sign.apply] using by exact_mod_cast fits

theorem Packed.rounded_eq {u : UnpackedFloat} {v : ℚ} (packed : Packed spec u)
    (value : value? u = some v) : rounded spec v = v :=
  Rounding.rounded_eq (packed.representable value) (packed.abs_lt value)

/-- A mantissa brought to a smaller exponent. -/
theorem apply_decreaseExponent (s : Sign) (m : Nat) {e e' : ℤ} (le : e' ≤ e) :
    ((s.apply (decreaseExponent m e e').1 : ℤ) : ℚ) * 2 ^ e' = signed s (m * 2 ^ e) := by
  obtain ⟨-, same⟩ := decreaseExponent_spec m e e'
  rw [min_eq_right le] at same
  rw [← signed_eq_apply, ← signed_mul, same]

theorem value?_neg {u : UnpackedFloat} {v : ℚ} (value : value? u = some v) :
    value? u.neg = some (-v) := by
  cases u with
  | infinity s => cases value
  | notANumber => cases value
  | zero s =>
    cases value
    rw [neg_zero]
    rfl
  | finite s m e pos =>
    cases value
    exact congrArg some (neg_signed s _)

theorem Packed.neg {u : UnpackedFloat} (packed : Packed spec u) : Packed spec u.neg := by
  cases u <;> exact packed

/-- The remainder of a division says where the quotient lies. -/
theorem locates_div (a : Nat) {b : Nat} (pos : 0 < b) :
    Locates (a / b) (a / b : ℚ) (accuracyOfFraction (a % b) b) := by
  have positive : (0 : ℚ) < b := Nat.cast_pos.mpr pos
  have whole : (a : ℚ) = b * (a / b : Nat) + (a % b : Nat) := by
    exact_mod_cast (Nat.div_add_mod a b).symm
  have remainder_lt : ((a % b : Nat) : ℚ) < b := Nat.cast_lt.mpr (Nat.mod_lt a pos)
  have quotient : (a / b : ℚ) = (a / b : Nat) + (a % b : Nat) / b := by
    rw [whole]
    field_simp
  unfold accuracyOfFraction
  split_ifs with exact
  · rw [Locates, quotient, exact]
    simp
  · have some_left : (0 : ℚ) < (a % b : Nat) := Nat.cast_pos.mpr (Nat.pos_of_ne_zero exact)
    rcases lt_trichotomy (2 * (a % b)) b with lt | eq | gt
    · have below : (2 * (a % b : Nat) : ℚ) < b := by exact_mod_cast lt
      rw [compare_lt_iff_lt.mpr lt, Locates, quotient]
      constructor
      · have : (0 : ℚ) < (a % b : Nat) / b := div_pos some_left positive
        linarith
      · have : ((a % b : Nat) : ℚ) / b < 1 / 2 := by
          rw [div_lt_div_iff₀ positive two_pos]
          linarith
        linarith
    · have tie : (2 * (a % b : Nat) : ℚ) = b := by exact_mod_cast eq
      rw [compare_eq_iff_eq.mpr eq, Locates, quotient]
      have : ((a % b : Nat) : ℚ) / b = 1 / 2 := by
        rw [div_eq_div_iff positive.ne' two_ne_zero]
        linarith
      rw [this]
    · have above : (b : ℚ) < 2 * (a % b : Nat) := by exact_mod_cast gt
      rw [compare_gt_iff_gt.mpr gt, Locates, quotient]
      constructor
      · have : 1 / 2 < ((a % b : Nat) : ℚ) / b := by
          rw [div_lt_div_iff₀ two_pos positive]
          linarith
        linarith
      · have : ((a % b : Nat) : ℚ) / b < 1 := (div_lt_one positive).mpr remainder_lt
        linarith

theorem log2_le_log2_mul {m m' : Nat} (pos : 0 < m) (pos' : 0 < m') : m.log2 ≤ (m * m').log2 := by
  rw [Nat.le_log2 (Nat.mul_pos pos pos').ne']
  exact (Nat.log2_self_le pos.ne').trans (Nat.le_mul_of_pos_right m pos')

theorem signed_mul_signed (s s' : Sign) (v v' : ℚ) :
    signed s v * signed s' v' = signed (s * s') (v * v') := by
  cases s <;> cases s'
  · exact neg_mul_neg v v'
  · exact neg_mul v v'
  · exact mul_neg v v'
  · rfl

theorem signed_div_signed (s s' : Sign) (v v' : ℚ) :
    signed s v / signed s' v' = signed (s / s') (v / v') := by
  cases s <;> cases s'
  · exact neg_div_neg_eq v v'
  · exact neg_div v' v
  · exact div_neg v
  · rfl

/-- A quotient is at least the power of two that the exponents of its parts call for. -/
theorem le_log_div {m₁ m₂ : Nat} (pos₁ : 0 < m₁) (pos₂ : 0 < m₂) (e₁ e₂ : ℤ) :
    totalExponent m₁ e₁ - totalExponent m₂ e₂ - 1 ≤
      Int.log 2 (m₁ * 2 ^ e₁ / (m₂ * 2 ^ e₂) : ℚ) := by
  have positive₁ : (0 : ℚ) < m₁ * 2 ^ e₁ := mul_pos (Nat.cast_pos.mpr pos₁) (zpow_pos two_pos e₁)
  have positive₂ : (0 : ℚ) < m₂ * 2 ^ e₂ := mul_pos (Nat.cast_pos.mpr pos₂) (zpow_pos two_pos e₂)
  rw [← Int.zpow_le_iff_le_log one_lt_two (div_pos positive₁ positive₂), le_div_iff₀ positive₂]
  calc (2 : ℚ) ^ (totalExponent m₁ e₁ - totalExponent m₂ e₂ - 1) * (m₂ * 2 ^ e₂)
      ≤ 2 ^ (totalExponent m₁ e₁ - totalExponent m₂ e₂ - 1) * 2 ^ (m₂.log2 + 1 + e₂ : ℤ) :=
        mul_le_mul_of_nonneg_left (mul_lt_zpow_log2 m₂ e₂).le (zpow_nonneg two_pos.le _)
    _ = 2 ^ (m₁.log2 + e₁ : ℤ) := by
        rw [← zpow_add₀ two_ne_zero, totalExponent, totalExponent]
        congr 1
        omega
    _ ≤ m₁ * 2 ^ e₁ := zpow_log2_le pos₁ e₁

/-- A quotient is computed to enough places. -/
theorem rounds_div {m₁ m₂ : Nat} {e₁ e₂ : ℤ} (pos₁ : 0 < m₁) (pos₂ : 0 < m₂) (s : Sign) :
    Rounds spec s (m₁ * 2 ^ e₁ / (m₂ * 2 ^ e₂))
      (roundWithAccuracy spec s (divCore spec m₁ e₁ m₂ e₂).1 (divCore spec m₁ e₁ m₂ e₂).2.1
        (divCore spec m₁ e₁ m₂ e₂).2.2) := by
  have two_le := two_le_mantissaBits spec
  have log_ge := le_log_div pos₁ pos₂ e₁ e₂
  have positive : (0 : ℚ) < m₁ * 2 ^ e₁ / (m₂ * 2 ^ e₂) :=
    div_pos (mul_pos (Nat.cast_pos.mpr pos₁) (zpow_pos two_pos e₁))
      (mul_pos (Nat.cast_pos.mpr pos₂) (zpow_pos two_pos e₂))
  simp only [divCore]
  generalize totalExponent m₁ e₁ - totalExponent m₂ e₂ = total at log_ge ⊢
  generalize lowered : min (e₁ - e₂) (spec.targetExponent total) = t
  have t_le : t ≤ spec.targetExponent total := by omega
  rw [Format.targetExponent] at t_le
  have located := locates_div (m₁ <<< (e₁ - e₂ - t).toNat) pos₂
  have quotient : (m₁ * 2 ^ e₁ / (m₂ * 2 ^ e₂) : ℚ) =
      ((m₁ <<< (e₁ - e₂ - t).toNat : Nat) / m₂ : ℚ) * 2 ^ t := by
    obtain ⟨count, shifted⟩ := Int.exists_add_of_le (show t ≤ e₁ - e₂ by omega)
    have shift : (e₁ - e₂ - t).toNat = count := by omega
    have raised : e₁ = t + count + e₂ := by omega
    rw [shift, Nat.shiftLeft_eq, raised, zpow_add₀ two_ne_zero, zpow_add₀ two_ne_zero, zpow_natCast]
    push_cast
    field_simp
  rw [quotient] at log_ge positive ⊢
  apply located.roundWithAccuracy positive
  · rcases Nat.eq_zero_or_pos ((m₁ <<< (e₁ - e₂ - t).toNat) / m₂) with none | some
    · -- no bit of the quotient is left of the point only where the least place is above it
      have below : ((m₁ <<< (e₁ - e₂ - t).toNat : Nat) / m₂ : ℚ) * 2 ^ t < 2 ^ t := by
        have lt_one := located.lt
        rw [none, Nat.cast_zero, zero_add] at lt_one
        simpa using mul_lt_mul_of_pos_right lt_one (zpow_pos two_pos t)
      have log_lt := (Int.lt_zpow_iff_log_lt one_lt_two positive).mp below
      rw [none, placeExponent, abs_of_pos positive, totalExponent, Nat.log2_zero,
        Format.targetExponent, Format.targetExponent]
      omega
    · exact located.placeExponent_eq some t
  · rw [placeExponent, abs_of_pos positive, Format.targetExponent]
    omega

section Wide

variable (wide : 0 < spec.exponentBias)

include wide

theorem minExponent_nonpos : spec.minExponent ≤ 0 := by
  have mantissa := spec.hm
  rw [minExponent_eq]
  omega

/-- The product of two canonical mantissas has enough places. -/
theorem rounds_mul {s₁ s₂ : Sign} {m₁ m₂ : Nat} {e₁ e₂ : ℤ} {pos₁ : 0 < m₁} {pos₂ : 0 < m₂}
    (canonical₁ : Canonical spec (.finite s₁ m₁ e₁ pos₁))
    (canonical₂ : Canonical spec (.finite s₂ m₂ e₂ pos₂)) (s : Sign) :
    Rounds spec s (m₁ * 2 ^ e₁ * (m₂ * 2 ^ e₂))
      (roundWithAccuracy spec s (m₁ * m₂) (e₁ + e₂) .exact) := by
  have least := minExponent_nonpos wide
  have log₁ := log2_le_log2_mul pos₁ pos₂
  have log₂ := log2_le_log2_mul pos₂ pos₁
  have pos : 0 < m₁ * m₂ := Nat.mul_pos pos₁ pos₂
  have exact : Locates (m₁ * m₂) (m₁ * m₂ : Nat) .exact := rfl
  have place : placeExponent spec ((m₁ * m₂ : Nat) * 2 ^ (e₁ + e₂)) =
      spec.targetExponent (totalExponent (m₁ * m₂) (e₁ + e₂)) := exact.placeExponent_eq pos _
  have product : (m₁ * 2 ^ e₁ * (m₂ * 2 ^ e₂) : ℚ) = (m₁ * m₂ : Nat) * 2 ^ (e₁ + e₂) := by
    rw [zpow_add₀ two_ne_zero]
    push_cast
    ring
  rw [product]
  apply exact.roundWithAccuracy (mul_pos (Nat.cast_pos.mpr pos) (zpow_pos two_pos _)) place
  rw [Nat.mul_comm m₂ m₁] at log₂
  rw [Canonical, Format.targetExponent, totalExponent] at canonical₁ canonical₂
  rw [place, Format.targetExponent, totalExponent]
  omega

theorem packedLevel_normalize (n e : ℤ) (s : Sign) :
    packedLevel spec (UnpackedFloat.normalize spec n e s) = (rounded spec (n * 2 ^ e) : ℚ) := by
  rw [UnpackedFloat.normalize]
  rcases lt_trichotomy n 0 with lt | rfl | gt
  · have magnitude : (((-n).toNat : Nat) : ℚ) = -n := by
      rw [← Int.cast_natCast, Int.toNat_of_nonneg (by omega), Int.cast_neg]
    rw [compare_lt_iff_lt.mpr lt]
    simp only
    rw [packedLevel, level_unpack_pack wide (rounds_round _ (by omega) e), magnitude, signed]
    rw [neg_mul, neg_neg]
  · simp
  · have magnitude : ((n.toNat : Nat) : ℚ) = n := by
      rw [← Int.cast_natCast, Int.toNat_of_nonneg (by omega)]
    rw [compare_gt_iff_gt.mpr gt]
    simp only
    rw [packedLevel, level_unpack_pack wide (rounds_round _ (by omega) e), magnitude, signed]

variable {u w : UnpackedFloat} {v v' : ℚ} (packed : Packed spec u) (packed' : Packed spec w)
  (value : value? u = some v) (value' : value? w = some v')

include packed packed' value value'

theorem packedLevel_add : packedLevel spec (add spec u w) = (rounded spec (v + v') : ℚ) := by
  have same := packed.packedLevel_eq
  have same' := packed'.packedLevel_eq
  rw [level_of_value? value] at same
  rw [level_of_value? value'] at same'
  cases u with
  | infinity s => cases value
  | notANumber => cases value
  | zero s =>
    cases value
    rw [zero_add, packed'.rounded_eq value']
    cases w with
    | infinity s' => cases value'
    | notANumber => cases value'
    | zero s' =>
      cases value'
      rw [add]
      split <;> exact packedLevel_zero _
    | finite s' m' e' pos' => exact same'
  | finite s m e pos =>
    cases w with
    | infinity s' => cases value'
    | notANumber => cases value'
    | zero s' =>
      cases value'
      rw [add_zero, packed.rounded_eq value]
      exact same
    | finite s' m' e' pos' =>
      cases value
      cases value'
      rw [add]
      simp only [packedLevel_normalize wide]
      push_cast
      rw [add_mul, apply_decreaseExponent s m (min_le_left e e'),
        apply_decreaseExponent s' m' (min_le_right e e')]

theorem packedLevel_sub : packedLevel spec (sub spec u w) = (rounded spec (v - v') : ℚ) := by
  have same := packed.packedLevel_eq
  have same' := packed'.neg.packedLevel_eq
  rw [level_of_value? value] at same
  rw [level_of_value? (value?_neg value')] at same'
  cases u with
  | infinity s => cases value
  | notANumber => cases value
  | zero s =>
    cases value
    rw [zero_sub, packed'.neg.rounded_eq (value?_neg value')]
    cases w with
    | infinity s' => cases value'
    | notANumber => cases value'
    | zero s' =>
      cases value'
      rw [sub]
      split <;> exact packedLevel_zero _
    | finite s' m' e' pos' => exact same'
  | finite s m e pos =>
    cases w with
    | infinity s' => cases value'
    | notANumber => cases value'
    | zero s' =>
      cases value'
      rw [sub_zero, packed.rounded_eq value]
      exact same
    | finite s' m' e' pos' =>
      cases value
      cases value'
      rw [sub]
      simp only [packedLevel_normalize wide]
      push_cast
      rw [sub_mul, apply_decreaseExponent s m (min_le_left e e'),
        apply_decreaseExponent s' m' (min_le_right e e')]

theorem packedLevel_mul : packedLevel spec (mul spec u w) = (rounded spec (v * v') : ℚ) := by
  cases u with
  | infinity s => cases value
  | notANumber => cases value
  | zero s =>
    cases value
    rw [zero_mul, rounded_zero]
    cases w with
    | infinity s' => cases value'
    | notANumber => cases value'
    | zero s' => exact packedLevel_zero _
    | finite s' m' e' pos' => exact packedLevel_zero _
  | finite s m e pos =>
    cases w with
    | infinity s' => cases value'
    | notANumber => cases value'
    | zero s' =>
      cases value'
      rw [mul_zero, rounded_zero]
      exact packedLevel_zero _
    | finite s' m' e' pos' =>
      cases value
      cases value'
      rw [mul, packedLevel, level_unpack_pack wide (rounds_mul wide packed.1 packed'.1 _),
        signed_mul_signed]

theorem packedLevel_div (nonzero : v' ≠ 0) :
    packedLevel spec (div spec u w) = (rounded spec (v / v') : ℚ) := by
  cases w with
  | infinity s' => cases value'
  | notANumber => cases value'
  | zero s' =>
    cases value'
    exact absurd rfl nonzero
  | finite s' m' e' pos' =>
    cases u with
    | infinity s => cases value
    | notANumber => cases value
    | zero s =>
      cases value
      rw [zero_div, rounded_zero]
      exact packedLevel_zero _
    | finite s m e pos =>
      cases value
      cases value'
      rw [div, packedLevel]
      rw [level_unpack_pack wide (rounds_div pos pos' _), signed_div_signed]

end Wide

end FixedPointNet.Rounding
