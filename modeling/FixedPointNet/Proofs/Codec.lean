import FixedPointNet.Codec
import FixedPointNet.Proofs.Binary32
import FixedPointNet.Proofs.Binary64.Exact
import Mathlib.Data.Rat.Floor

/-!
# The codec is exact

Scaling a number of single precision by `2 ^ B` is exact, so that quantizing it gives the floor of
the scaled number wherever that is a word.

Dividing a sum of products by `2 ^ B` rounds the rational quotient towards the floor. A rescaled sum
plus a bias is the representative of floor and bias among the words, and a sum overflows when the
floor is outside the range of a word.
-/

namespace FixedPointNet.Codec

/-- The division of a sum is the floor of the rational quotient. -/
theorem floor_div_eq (codec : Codec) (sum : Int) :
    ⌊(sum : ℚ) / 2 ^ codec.fractionBits⌋ = sum / Nat.pow 2 codec.fractionBits := by
  have floored := Rat.floor_intCast_div_natCast sum (2 ^ codec.fractionBits)
  rw [Nat.pow_eq]
  push_cast at floored ⊢
  exact floored

theorem overflows_iff (codec : Codec) (sum : Int) :
    codec.overflows sum = true ↔ ⌊(sum : ℚ) / 2 ^ codec.fractionBits⌋ < minWord ∨
      maxWord < ⌊(sum : ℚ) / 2 ^ codec.fractionBits⌋ := by
  rw [floor_div_eq]
  simp [overflows]

/-- A rescaled sum plus a bias is taken modulo the number of words. -/
theorem rescale_add_eq (codec : Codec) (sum : Int) (bias : Int64) :
    codec.rescale sum + bias =
      Int64.ofInt ((⌊(sum : ℚ) / 2 ^ codec.fractionBits⌋ + bias.toInt).bmod (2 ^ 64)) := by
  rw [floor_div_eq, rescale]
  apply Int64.toInt_inj.mp
  simp

theorem value?_scale (codec : Codec) :
    Binary64.value? codec.scale = some (2 ^ codec.fractionBits) := by
  have few := codec.fractionBits_lt
  have least : Float.Model.Format.binary64.minExponent ≤ 0 := by decide
  have fits : Rounding.Representable .binary64 (2 ^ codec.fractionBits) :=
    ⟨1, codec.fractionBits, by omega, by decide, by simp⟩
  have below : |(2 ^ codec.fractionBits : ℚ)| < Binary64.limit := by
    rw [abs_of_pos (pow_pos two_pos _)]
    exact pow_lt_pow_right₀ one_lt_two (few.trans (by decide))
  apply Binary64.value?_of_level _ below
  rw [scale, Binary64.level_ofNat, Nat.pow_eq, Nat.cast_pow, Nat.cast_ofNat, Binary64.rounded,
    Rounding.rounded_eq fits below]

variable {codec : Codec} {x : Float32} {v : ℚ}

theorem value?_widen_mul_scale (at_v : Binary32.value? x = some v) :
    Binary64.value? (Binary32.widen x * codec.scale) = some (v * 2 ^ codec.fractionBits) := by
  have few : codec.fractionBits ≤ 512 := by have := codec.fractionBits_lt; omega
  have below := Binary32.abs_lt_limit (Binary32.abs_lt at_v) few
  have fits := Binary32.representable_mul_two_pow (Binary32.representable at_v) codec.fractionBits
  apply Binary64.value?_of_level _ below
  rw [Binary64.level_mul (Binary32.value?_widen at_v) codec.value?_scale, Binary64.rounded,
    Rounding.rounded_eq fits below]

/-- A single-precision float that does not saturate is a number, and its word is the floor of the
    scaled number. -/
theorem exists_toInt_quantize (unsaturated : codec.saturates (Binary32.widen x) = false) :
    ∃ v, Binary32.value? x = some v ∧
      (codec.quantize (Binary32.widen x)).toInt = ⌊v * 2 ^ codec.fractionBits⌋ := by
  cases at_v : Binary32.value? x with
  | none =>
    have infinite := Binary64.value?_mul_eq_none (Binary32.value?_widen_eq_none at_v)
      codec.value?_scale (pow_pos two_pos _)
    simp [saturates, Binary64.floor?_eq, infinite] at unsaturated
  | some v =>
    have scaled : Binary64.value? (Binary32.widen x * codec.scale) =
        some (v * 2 ^ codec.fractionBits) := value?_widen_mul_scale at_v
    simp only [saturates, Binary64.floor?_eq, scaled, Option.map_some, Bool.or_eq_false_iff,
      decide_eq_false_iff_not, not_lt] at unsaturated
    obtain ⟨low, high⟩ := unsaturated
    refine ⟨v, rfl, ?_⟩
    rw [quantize, Binary64.floorClamp_of_value _ _ scaled, min_eq_right high, max_eq_right low]
    apply Int64.toInt_ofInt_of_le
    · exact low
    · exact Int.lt_add_one_of_le high

section Double

variable {y : Float} {q : Int64}

/-- Scaling a float is exact, short of the infinities. -/
theorem level_mul_scale (codec : Codec) (at_v : Binary64.level y = v) :
    Binary64.level (y * codec.scale) =
      (max (-Binary64.limit) (min Binary64.limit (v * 2 ^ codec.fractionBits)) : ℚ) := by
  rw [Binary64.level_mul_of_pos codec.value?_scale (pow_pos two_pos _),
    Binary64.lift_mul_two_pow at_v]

theorem words_below_limit :
    -Binary64.limit < ((minWord : ℤ) : ℚ) ∧ ((maxWord : ℤ) : ℚ) + 1 ≤ Binary64.limit := by
  have far := Binary64.two_pow_lt_limit
  rw [minWord, maxWord]
  push_cast
  constructor <;> linarith

/-- A float beyond all words has the same floor among the words as an infinity. -/
theorem pinned_floor_eq (w : ℚ) :
    max minWord (min maxWord ⌊max (-Binary64.limit) (min Binary64.limit w)⌋) =
      max minWord (min maxWord ⌊w⌋) := by
  obtain ⟨low, high⟩ := words_below_limit
  have bottom : ⌊-Binary64.limit⌋ ≤ minWord := Int.cast_le.mp ((Int.floor_le _).trans low.le)
  have top : maxWord ≤ ⌊Binary64.limit⌋ := Int.le_floor.mpr (by linarith)
  rw [Int.floor_mono.map_max, Int.floor_mono.map_min]
  omega

theorem toInt_quantize_eq_floorClamp (codec : Codec) (y : Float) :
    (codec.quantize y).toInt = Binary64.floorClamp minWord maxWord (y * codec.scale) := by
  obtain ⟨low, high⟩ := Binary64.floorClamp_between (show minWord ≤ 0 by decide)
    (show 0 ≤ maxWord by decide) (y * codec.scale)
  exact Int64.toInt_ofInt_of_le low (Int.lt_add_one_of_le high)

/-- The word of a float is the floor, pinned to the words. -/
theorem toInt_quantize (at_v : Binary64.level y = v) :
    (codec.quantize y).toInt = max minWord (min maxWord ⌊v * 2 ^ codec.fractionBits⌋) := by
  obtain ⟨low, high⟩ := words_below_limit
  rw [toInt_quantize_eq_floorClamp, Binary64.floorClamp_of_level (by decide) low.le (by linarith)
    (codec.level_mul_scale at_v), pinned_floor_eq]

/-- A number between zero and one is stored as the floor of the scaled number. -/
theorem toInt_quantize_of_share (at_v : Binary64.value? y = some v) (nonneg : 0 ≤ v)
    (le_one : v ≤ 1) : (codec.quantize y).toInt = ⌊v * 2 ^ codec.fractionBits⌋ := by
  have few := codec.fractionBits_lt
  have scale_le : (2 : ℤ) ^ codec.fractionBits ≤ 2 ^ 62 :=
    pow_le_pow_right₀ one_le_two (Nat.le_of_lt_succ few)
  obtain ⟨floor_nonneg, floor_le⟩ :=
    Binary64.floor_mul_two_pow_between nonneg le_one codec.fractionBits
  rw [toInt_quantize (Binary64.level_of_value? at_v), minWord, maxWord]
  omega

/-- Its word is between zero and one. -/
theorem toInt_quantize_between (at_v : Binary64.value? y = some v) (nonneg : 0 ≤ v)
    (le_one : v ≤ 1) :
    0 ≤ (codec.quantize y).toInt ∧ (codec.quantize y).toInt ≤ 2 ^ codec.fractionBits := by
  rw [toInt_quantize_of_share at_v nonneg le_one]
  exact Binary64.floor_mul_two_pow_between nonneg le_one codec.fractionBits

theorem abs_toInt_le (q : Int64) : |(q.toInt : ℚ)| ≤ 2 ^ 64 := by
  have low := q.le_toInt
  have high := q.toInt_lt
  have magnitude : |q.toInt| ≤ 2 ^ 64 := abs_le.mpr ⟨by omega, by omega⟩
  exact_mod_cast magnitude

/-- Every word stands for a number. -/
theorem exists_value?_dequantize (codec : Codec) (q : Int64) :
    ∃ v, Binary64.value? (codec.dequantize q) = some v := by
  have scale : (1 : ℚ) ≤ 2 ^ codec.fractionBits := one_le_pow₀ one_le_two
  have positive : (0 : ℚ) < 2 ^ codec.fractionBits := pow_pos two_pos _
  have word := abs_toInt_le q
  have at_word := Binary64.value?_of_abs_le (Binary64.level_ofInt q.toInt) word
  have quotient : |Binary64.rounded q.toInt / 2 ^ codec.fractionBits| ≤ 2 ^ 64 := by
    rw [abs_div, abs_of_pos positive]
    exact (div_le_self (abs_nonneg _) scale).trans (Binary64.abs_rounded_le_two_pow word)
  exact ⟨_, Binary64.value?_of_abs_le
    (Binary64.level_div at_word codec.value?_scale positive.ne') quotient⟩

/-- The numbers of words are ordered as the words are. -/
theorem dequantize_le_dequantize (codec : Codec) {p q : Int64} (le : p ≤ q) :
    codec.dequantize p ≤ codec.dequantize q := by
  have positive : (0 : ℚ) < 2 ^ codec.fractionBits := pow_pos two_pos _
  have words : (p.toInt : ℚ) ≤ q.toInt := Int.cast_le.mpr (Int64.le_iff_toInt_le.mp le)
  obtain ⟨v, at_v⟩ := codec.exists_value?_dequantize p
  rw [Binary64.le_iff]
  constructor
  · simp [Binary64.level_of_value? at_v]
  · rw [dequantize, dequantize, Binary64.level_div_of_pos codec.value?_scale positive,
      Binary64.level_div_of_pos codec.value?_scale positive]
    apply Binary64.lift_mono fun _ _ le => div_le_div_of_nonneg_right le positive.le
    rw [Binary64.level_ofInt, Binary64.level_ofInt, WithBot.coe_le_coe]
    exact Rounding.rounded_mono _ words

/-- A word stands for the quotient of what it is rounded to by the scale. -/
theorem value?_dequantize_of_rounded (codec : Codec) {r : ℤ}
    (nearest : Binary64.rounded q.toInt = r) (fits : Rounding.Representable .binary64 r) :
    Binary64.value? (codec.dequantize q) = some (r / 2 ^ codec.fractionBits : ℚ) := by
  have few := codec.fractionBits_lt
  have scale : (1 : ℚ) ≤ 2 ^ codec.fractionBits := one_le_pow₀ one_le_two
  have positive : (0 : ℚ) < 2 ^ codec.fractionBits := pow_pos two_pos _
  have word := abs_toInt_le q
  have at_word := Binary64.value?_of_abs_le (Binary64.level_ofInt q.toInt) word
  have magnitude := Binary64.abs_rounded_le_two_pow word
  rw [nearest] at at_word magnitude
  have quotient : |(r / 2 ^ codec.fractionBits : ℚ)| ≤ 2 ^ 64 := by
    rw [abs_div, abs_of_pos positive]
    exact (div_le_self (abs_nonneg _) scale).trans magnitude
  exact Binary64.value?_of_representable
    (Binary64.level_div at_word codec.value?_scale positive.ne')
    (Binary64.representable_intCast_div_two_pow fits (by omega))
    (Binary64.lt_limit_of_le_two_pow quotient)

/-- A word that double precision holds stands for its quotient by the scale. -/
theorem value?_dequantize_of_representable (codec : Codec)
    (fits : Rounding.Representable .binary64 q.toInt) :
    Binary64.value? (codec.dequantize q) = some (q.toInt / 2 ^ codec.fractionBits : ℚ) :=
  codec.value?_dequantize_of_rounded
    (Rounding.rounded_eq fits (Binary64.lt_limit_of_le_two_pow (abs_toInt_le q))) fits

/-- A word of few bits stands for its quotient by the scale. -/
theorem value?_dequantize (codec : Codec) (fits : |q.toInt| < 2 ^ 53) :
    Binary64.value? (codec.dequantize q) = some (q.toInt / 2 ^ codec.fractionBits : ℚ) :=
  codec.value?_dequantize_of_representable (Binary64.representable_intCast fits.le)

end Double

end FixedPointNet.Codec
