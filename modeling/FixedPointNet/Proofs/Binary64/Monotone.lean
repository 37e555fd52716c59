import FixedPointNet.Proofs.Binary64

/-!
# Monotone arithmetic

Adding to a number, multiplying by a positive float and dividing by a positive number keep the order
of floats, also where a result overflows or is not a number. The factor may be infinite; its product
with zero is not a number then, and stays below all other products of the factor.
-/

namespace FixedPointNet.Binary64

open Float.Model (Format UnpackedFloat)

/-- A float that is not below zero. What is not a number counts as one. -/
def NotNegative (x : Float) : Prop :=
  level x = ⊥ ∨ (0 : ℚ) ≤ level x

variable {x y c : Float} {w : ℚ}

/-- A monotone function that does not take zero below zero does so with no float. -/
theorem NotNegative.lift {f : ℚ → ℚ} (notNegative : NotNegative x) (mono : Monotone f)
    (origin : 0 ≤ f 0) (follows : level y = lift f (level x)) : NotNegative y := by
  rcases notNegative with nan | nonneg
  · left
    rw [follows, nan]
    rfl
  · right
    have zero_lt : |(0 : ℚ)| < limit := by
      rw [abs_zero]
      exact Rounding.limit_pos _
    have at_origin : (0 : ℚ) ≤ rounded (f 0) := by
      have rounds := Rounding.rounded_mono .binary64 origin
      rwa [Rounding.rounded_zero] at rounds
    have above := lift_mono mono nonneg
    rw [lift_of_abs_lt f zero_lt, ← follows] at above
    exact (WithBot.coe_le_coe.mpr at_origin).trans above

theorem level_ofNat_le_level_ofNat {m n : Nat} (le : m ≤ n) :
    level (ofNat m) ≤ level (ofNat n) := by
  rw [level_ofNat, level_ofNat, WithBot.coe_le_coe]
  exact Rounding.rounded_mono .binary64 (Nat.cast_le.mpr le)

theorem notNegative_ofNat (n : Nat) : NotNegative (ofNat n) := by
  have above := level_ofNat_le_level_ofNat n.zero_le
  rw [level_ofNat, Nat.cast_zero, rounded, Rounding.rounded_zero] at above
  exact .inr above

theorem level_ofNat_pos {n : Nat} (pos : 0 < n) : (0 : ℚ) < level (ofNat n) := by
  have one : level (ofNat 1) = (1 : ℚ) := level_of_value? (by decide +kernel)
  have above := level_ofNat_le_level_ofNat (Nat.succ_le_of_lt pos)
  rw [one] at above
  exact (WithBot.coe_lt_coe.mpr zero_lt_one).trans_le above

/-- A float above zero is a positive number or positive infinity. -/
theorem cases_of_pos (pos : (0 : ℚ) < level c) :
    (∃ w, value? c = some w ∧ 0 < w) ∨ c.toModel.unpack = .infinity .positive := by
  rcases (packed c).value?_cases with nan | ⟨s, infinite⟩ | ⟨w, value, -⟩
  · rw [level, nan] at pos
    cases pos
  · cases s with
    | positive => exact .inr infinite
    | negative =>
      have positive := Rounding.limit_pos .binary64
      rw [level, infinite, Rounding.level, Rounding.signed, WithBot.coe_lt_coe] at pos
      linarith
  · rw [level_of_value? value, WithBot.coe_lt_coe] at pos
    exact .inl ⟨w, value, pos⟩

theorem level_mul_infinity (infinite : c.toModel.unpack = .infinity .positive)
    (pos : (0 : ℚ) < level x) : level (x * c) = limit := by
  have product : (x * c).toModel.unpack = .infinity .positive := by
    change (Float.Model.pack (.mul _ x.toModel.unpack c.toModel.unpack)).unpack = _
    rcases cases_of_pos pos with ⟨w, value, w_pos⟩ | infinite'
    · obtain ⟨m, e, nonzero, unpacked⟩ := exists_unpack_of_pos value w_pos
      rw [unpacked, infinite]
      exact unpack_pack_infinity _
    · rw [infinite', infinite]
      exact unpack_pack_infinity _
  rw [level, product]
  rfl

/-- Zero times infinity is not a number. -/
theorem level_mul_infinity_eq_bot (infinite : c.toModel.unpack = .infinity .positive)
    (notNegative : NotNegative x) (not_pos : ¬ (0 : ℚ) < level x) : level (x * c) = ⊥ := by
  have product : (x * c).toModel.unpack = .notANumber := by
    change (Float.Model.pack (.mul _ x.toModel.unpack c.toModel.unpack)).unpack = _
    rcases notNegative with nan | nonneg
    · rw [level, Rounding.level_eq_bot_iff] at nan
      rw [nan, infinite]
      exact unpack_pack_notANumber
    · have zero : level x = (0 : ℚ) := le_antisymm (not_lt.mp not_pos) nonneg
      rw [level] at zero
      have positive := Rounding.limit_pos .binary64
      cases unpacked : x.toModel.unpack with
      | notANumber =>
        rw [infinite]
        exact unpack_pack_notANumber
      | zero s =>
        rw [infinite]
        exact unpack_pack_notANumber
      | infinity s =>
        rw [unpacked, Rounding.level, WithBot.coe_inj] at zero
        cases s <;> simp [Rounding.signed, positive.ne'] at zero
      | finite s m e nonzero =>
        rw [unpacked, Rounding.level, WithBot.coe_inj] at zero
        have magnitude : (m * 2 ^ e : ℚ) ≠ 0 := by positivity
        cases s <;> simp [Rounding.signed, magnitude] at zero
  rw [level, product]
  rfl

/-- Multiplying by a float above zero keeps the order. -/
theorem level_mul_le_level_mul (pos : (0 : ℚ) < level c) (notNegative : NotNegative x)
    (le : level x ≤ level y) : level (x * c) ≤ level (y * c) := by
  rcases cases_of_pos pos with ⟨w, value, w_pos⟩ | infinite
  · rw [level_mul_of_pos value w_pos, level_mul_of_pos value w_pos]
    exact lift_mono (fun _ _ le => mul_le_mul_of_nonneg_right le w_pos.le) le
  · by_cases x_pos : (0 : ℚ) < level x
    · rw [level_mul_infinity infinite x_pos, level_mul_infinity infinite (x_pos.trans_le le)]
    · rw [level_mul_infinity_eq_bot infinite notNegative x_pos]
      exact bot_le

theorem NotNegative.mul (notNegative : NotNegative x) (pos : (0 : ℚ) < level c) :
    NotNegative (x * c) := by
  rcases cases_of_pos pos with ⟨w, value, w_pos⟩ | infinite
  · have mono : Monotone (· * w) := fun _ _ le => mul_le_mul_of_nonneg_right le w_pos.le
    exact notNegative.lift mono (zero_mul w).ge (level_mul_of_pos value w_pos x)
  · by_cases x_pos : (0 : ℚ) < level x
    · right
      rw [level_mul_infinity infinite x_pos, WithBot.coe_le_coe]
      exact (Rounding.limit_pos _).le
    · exact .inl (level_mul_infinity_eq_bot infinite notNegative x_pos)

theorem level_value_add_le (value : value? c = some w) (le : level x ≤ level y) :
    level (c + x) ≤ level (c + y) := by
  rw [level_value_add value, level_value_add value]
  exact lift_mono (fun _ _ le => add_le_add_right le w) le

theorem NotNegative.value_add (notNegative : NotNegative x) (value : value? c = some w)
    (nonneg : 0 ≤ w) : NotNegative (c + x) := by
  have mono : Monotone (w + ·) := fun _ _ le => add_le_add_right le w
  exact notNegative.lift mono (by simpa using nonneg) (level_value_add value x)

end FixedPointNet.Binary64
