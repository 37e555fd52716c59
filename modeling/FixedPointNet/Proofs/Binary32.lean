import FixedPointNet.Binary32
import FixedPointNet.Proofs.Binary64

/-!
# Single precision on the number line

A single-precision float widened to double precision is the same number. Infinities stay infinite
and what is not a number stays so, hence widened floats compare as they did before.
-/

namespace FixedPointNet.Binary32

open Float.Model (Format UnpackedFloat)
open Rounding (Packed Representable)

/-- The number of a finite float. -/
def value? (x : Float32) : Option ℚ :=
  Rounding.value? x.toModel.unpack

theorem wide : 0 < Format.binary32.exponentBias := by decide

theorem packed (x : Float32) : Packed .binary32 x.toModel.unpack :=
  Rounding.packed_unpack wide _

variable {x : Float32} {v : ℚ}

theorem representable (at_v : value? x = some v) : Representable .binary32 v :=
  (packed x).representable at_v

theorem abs_lt (at_v : value? x = some v) : |v| < 2 ^ 128 :=
  (packed x).abs_lt at_v

/-- Numbers of single precision, scaled up, are numbers of double precision. -/
theorem representable_mul_two_pow (representable : Representable .binary32 v) (k : Nat) :
    Representable .binary64 (v * 2 ^ k) := by
  obtain ⟨m, e, least, fits, rfl⟩ := representable
  have least64 : Format.binary64.minExponent ≤ Format.binary32.minExponent := by decide
  have fits64 : (2 : ℤ) ^ Format.binary32.mantissaBits ≤ 2 ^ Format.binary64.mantissaBits := by
    decide
  refine ⟨m, e + k, by omega, fits.trans_le fits64, ?_⟩
  rw [zpow_add₀ two_ne_zero, zpow_natCast, mul_assoc]

theorem abs_lt_limit {k : Nat} (below : |v| < 2 ^ 128) (few : k ≤ 512) :
    |v * 2 ^ k| < Binary64.limit := by
  have scale : (0 : ℚ) < 2 ^ k := pow_pos two_pos k
  calc |v * 2 ^ k| = |v| * 2 ^ k := by rw [abs_mul, abs_of_pos scale]
    _ < 2 ^ 128 * 2 ^ k := mul_lt_mul_of_pos_right below scale
    _ = 2 ^ (128 + k) := (pow_add 2 128 k).symm
    _ ≤ 2 ^ 1024 := pow_le_pow_right₀ one_le_two (by omega)

/-- Widening does not change a number. -/
theorem value?_widen (at_v : value? x = some v) : Binary64.value? (widen x) = some v := by
  have fits := representable_mul_two_pow (representable at_v) 0
  have below := abs_lt_limit (abs_lt at_v) (Nat.zero_le 512)
  rw [pow_zero, mul_one] at fits below
  unfold value? at at_v
  unfold widen
  cases unpacked : x.toModel.unpack with
  | infinity s => rw [unpacked] at at_v; cases at_v
  | notANumber => rw [unpacked] at at_v; cases at_v
  | zero s =>
    rw [unpacked] at at_v
    cases at_v
    simp only [Binary64.value?]
    exact congrArg Rounding.value? UnpackedFloat.unpack_packedZero
  | finite s m e pos =>
    rw [unpacked] at at_v
    cases at_v
    apply Binary64.value?_of_level _ below
    have rounds := Rounding.level_unpack_pack Binary64.wide (Rounding.rounds_round s pos e)
    rw [Rounding.rounded_eq fits below] at rounds
    exact rounds

/-- An infinity and what is not a number stay what they are. -/
theorem unpack_widen (special : value? x = none) :
    (widen x).toModel.unpack = x.toModel.unpack := by
  unfold value? at special
  unfold widen
  cases unpacked : x.toModel.unpack with
  | infinity s => exact Rounding.unpack_packedInfinity s
  | notANumber => exact UnpackedFloat.unpack_packedNaN
  | zero s => rw [unpacked] at special; cases special
  | finite s m e pos => rw [unpacked] at special; cases special

theorem value?_widen_eq_none (infinite : value? x = none) : Binary64.value? (widen x) = none := by
  rw [Binary64.value?, unpack_widen infinite]
  exact infinite

/-- The level of a float among all floats of single precision. -/
def level (x : Float32) : WithBot ℚ :=
  Rounding.level .binary32 x.toModel.unpack

/-- The least power of two above all finite floats. -/
abbrev limit : ℚ :=
  Rounding.limit .binary32

theorem limit_lt_limit : limit < Binary64.limit :=
  pow_lt_pow_right₀ one_lt_two (by decide)

theorem isNaN_iff : x.isNaN = true ↔ level x = ⊥ := by
  rw [level, Rounding.level_eq_bot_iff]
  change x.toModel.unpack.isNaN = true ↔ _
  cases x.toModel.unpack <;> simp [UnpackedFloat.isNaN]

theorem le_iff {y : Float32} : x ≤ y ↔ level x ≠ ⊥ ∧ level x ≤ level y := by
  rw [level, level, ← Rounding.le_iff (packed x) (packed y)]
  change decide (x.toModel ≤ y.toModel) = true ↔ _
  rw [decide_eq_true_iff]
  rfl

/-- A float is not a number, or its level lies between the infinities. -/
theorem level_cases (x : Float32) :
    level x = ⊥ ∨ ∃ v : ℚ, level x = v ∧ v ∈ Set.Icc (-limit) limit := by
  have above := neg_le_self (Rounding.limit_pos .binary32).le
  rcases (packed x).value?_cases with nan | ⟨s, infinite⟩ | ⟨v, value, below⟩
  · exact .inl (by rw [level, nan, Rounding.level])
  · refine .inr ⟨Rounding.signed s limit, by rw [level, infinite, Rounding.level], ?_⟩
    cases s with
    | negative => exact ⟨le_rfl, above⟩
    | positive => exact ⟨above, le_rfl⟩
  · exact .inr ⟨v, Rounding.level_of_value? value, (neg_lt_of_abs_lt below).le,
      (lt_of_abs_lt below).le⟩

/-- What widening does to a level: the infinities move to the limit of double precision. -/
def widenLevel (v : ℚ) : ℚ :=
  if v ≤ -limit then -Binary64.limit else if limit ≤ v then Binary64.limit else v

theorem widenLevel_strictMonoOn : StrictMonoOn widenLevel (Set.Icc (-limit) limit) := by
  have positive := Rounding.limit_pos .binary32
  have limits := limit_lt_limit
  rintro v ⟨low, high⟩ w ⟨low', high'⟩ lt
  unfold widenLevel
  split_ifs <;> linarith

theorem widenLevel_of_abs_lt (below : |v| < limit) : widenLevel v = v := by
  rw [widenLevel, if_neg (neg_lt_of_abs_lt below).not_ge, if_neg (lt_of_abs_lt below).not_ge]

theorem level_widen (x : Float32) : Binary64.level (widen x) = (level x).map widenLevel := by
  have positive := Rounding.limit_pos .binary32
  rcases (packed x).value?_cases with nan | ⟨s, infinite⟩ | ⟨v, value, below⟩
  · have special : value? x = none := congrArg Rounding.value? nan
    rw [Binary64.level, level, unpack_widen special, nan]
    rfl
  · have special : value? x = none := congrArg Rounding.value? infinite
    rw [Binary64.level, level, unpack_widen special, infinite]
    cases s with
    | negative => simp [Rounding.level, Rounding.signed, widenLevel]
    | positive => simp [Rounding.level, Rounding.signed, widenLevel, (neg_lt_self positive).not_ge]
  · rw [Binary64.level_of_value? (value?_widen value), level, Rounding.level_of_value? value,
      WithBot.map_coe, widenLevel_of_abs_lt below]

theorem isNaN_widen (x : Float32) : (widen x).isNaN = x.isNaN := by
  rw [Bool.eq_iff_iff, Binary64.isNaN_iff, isNaN_iff, level_widen, WithBot.map_eq_bot_iff]

/-- Widening keeps the order of floats. -/
theorem widen_le_widen_iff {y : Float32} : widen x ≤ widen y ↔ x ≤ y := by
  rw [Binary64.le_iff, le_iff, level_widen, level_widen]
  rcases level_cases x with nan | ⟨v, at_v, v_between⟩
  · simp [nan]
  rcases level_cases y with nan | ⟨w, at_w, w_between⟩
  · simp [at_v, nan]
  rw [at_v, at_w, WithBot.map_coe, WithBot.map_coe, WithBot.coe_le_coe, WithBot.coe_le_coe,
    widenLevel_strictMonoOn.le_iff_le v_between w_between]
  simp

end FixedPointNet.Binary32
