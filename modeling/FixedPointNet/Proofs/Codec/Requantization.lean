import FixedPointNet.Proofs.Codec
import FixedPointNet.Proofs.Rounding.Integers

/-!
# Words that survive a round trip

A word that is taken to a real number and stored again comes back rounded to 53 significant bits,
ties to even; what is rounded past the greatest word is pinned to it. The two scalings are exact, so
a word comes back unchanged exactly if double precision holds it or it is the greatest one.
-/

namespace FixedPointNet

open Float.Model (Format)
open Rounding (Representable nearestInteger)

namespace Binary64

variable {m n : ℤ}

theorem nearest_eq_nearestInteger (n : ℤ) :
    Rounding.nearest .binary64 n = nearestInteger 53 n :=
  Rounding.nearest_intCast (by decide) n

theorem nearestInteger_mono (le : m ≤ n) : nearestInteger 53 m ≤ nearestInteger 53 n := by
  have rounds := Rounding.nearest_mono .binary64 (Int.cast_le.mpr le)
  rw [nearest_eq_nearestInteger, nearest_eq_nearestInteger] at rounds
  exact_mod_cast rounds

theorem nearestInteger_of_representable (fits : Representable .binary64 n) :
    nearestInteger 53 n = n := by
  have same := Rounding.nearest_eq _ fits
  rw [nearest_eq_nearestInteger] at same
  exact_mod_cast same

theorem representable_nearestInteger (n : ℤ) :
    Representable .binary64 (nearestInteger 53 n : ℤ) := by
  obtain ⟨m, e, fits, number⟩ : ∃ (m : ℤ) (e : ℕ), |m| < 2 ^ 53 ∧ nearestInteger 53 n = m * 2 ^ e :=
    Rounding.exists_nearestInteger_eq (by decide) n
  have least : Format.binary64.minExponent ≤ 0 := by decide
  refine ⟨m, e, by omega, fits, ?_⟩
  rw [number]
  push_cast
  rfl

end Binary64

namespace Codec

open Binary64 (value?)

variable {codec : Codec} {q : Int64}

/-- The word that is stored for the number of a word. -/
def requantize (codec : Codec) (q : Int64) : Int64 :=
  codec.quantize (codec.dequantize q)

theorem nearestInteger_toInt_between (q : Int64) :
    minWord ≤ nearestInteger 53 q.toInt ∧ nearestInteger 53 q.toInt ≤ maxWord + 1 := by
  have least : nearestInteger 53 minWord = minWord := by decide +kernel
  have greatest : nearestInteger 53 maxWord = maxWord + 1 := by decide +kernel
  constructor
  · rw [← least]
    exact Binary64.nearestInteger_mono q.le_toInt
  · rw [← greatest]
    exact Binary64.nearestInteger_mono (Int.le_of_lt_add_one q.toInt_lt)

theorem rounded_toInt (q : Int64) : Binary64.rounded q.toInt = nearestInteger 53 q.toInt := by
  obtain ⟨low, high⟩ := nearestInteger_toInt_between q
  have magnitude : |nearestInteger 53 q.toInt| ≤ 2 ^ 63 := by
    rw [minWord] at low
    rw [maxWord] at high
    exact abs_le.mpr ⟨by omega, by omega⟩
  have below : |Rounding.nearest .binary64 q.toInt| < Binary64.limit := by
    have far : (2 : ℚ) ^ 63 < Binary64.limit := pow_lt_pow_right₀ one_lt_two (by decide)
    rw [Binary64.nearest_eq_nearestInteger]
    exact lt_of_le_of_lt (by exact_mod_cast magnitude) far
  rw [Binary64.rounded, Rounding.rounded_of_abs_lt below, Binary64.nearest_eq_nearestInteger]

theorem toInt_requantize (codec : Codec) (q : Int64) :
    (codec.requantize q).toInt = min (nearestInteger 53 q.toInt) maxWord := by
  have positive : (0 : ℚ) < 2 ^ codec.fractionBits := pow_pos two_pos _
  have number := codec.value?_dequantize_of_rounded (rounded_toInt q)
    (Binary64.representable_nearestInteger _)
  have low := (nearestInteger_toInt_between q).1
  have ordered : minWord ≤ maxWord := by decide
  rw [requantize, toInt_quantize (Binary64.level_of_value? number), div_mul_cancel₀ _ positive.ne',
    Int.floor_intCast]
  omega

theorem requantize_of_representable (fits : Representable .binary64 q.toInt) :
    codec.requantize q = q := by
  have high : q.toInt ≤ maxWord := Int.le_of_lt_add_one q.toInt_lt
  rw [← Int64.toInt_inj, toInt_requantize, Binary64.nearestInteger_of_representable fits,
    min_eq_left high]

theorem requantize_maxValue (codec : Codec) : codec.requantize Int64.maxValue = Int64.maxValue := by
  have greatest : min (nearestInteger 53 Int64.maxValue.toInt) maxWord = Int64.maxValue.toInt := by
    decide +kernel
  rw [← Int64.toInt_inj, toInt_requantize, greatest]

/-- A word comes back as an integer of double precision or as the greatest word. -/
theorem representable_requantize_or (codec : Codec) (q : Int64) :
    Representable .binary64 (codec.requantize q).toInt ∨ codec.requantize q = Int64.maxValue := by
  have greatest : Int64.maxValue.toInt = maxWord := rfl
  rw [← Int64.toInt_inj, toInt_requantize, greatest]
  rcases min_choice (nearestInteger 53 q.toInt) maxWord with same | same
  · rw [same]
    exact .inl (Binary64.representable_nearestInteger _)
  · exact .inr same

theorem requantize_eq_iff :
    codec.requantize q = q ↔ Representable .binary64 q.toInt ∨ q = Int64.maxValue := by
  constructor
  · intro same
    have comes_back := codec.representable_requantize_or q
    rwa [same] at comes_back
  · rintro (fits | rfl)
    · exact requantize_of_representable fits
    · exact codec.requantize_maxValue

/-- The words of double precision are the numbers of floats. -/
theorem representable_toInt_iff :
    Representable .binary64 q.toInt ↔ ∃ x, value? x = some (q.toInt : ℚ) := by
  constructor
  · intro fits
    exact ⟨_, Binary64.value?_of_representable (Binary64.level_ofInt q.toInt) fits
      (Binary64.lt_limit_of_le_two_pow (abs_toInt_le q))⟩
  · rintro ⟨x, value⟩
    exact Binary64.representable value

/-- A word that is taken to a real number and stored again is rounded to the nearest integer of 53
    significant bits and pinned to the greatest word. So exactly the words of double precision and
    the greatest one come back unchanged, among them all up to 2 ^ 53; the order of words is kept,
    and a second round trip changes nothing. No integer of 53 significant bits is nearer to a word
    than the one it is rounded to. -/
theorem requantize_rounds (codec : Codec) :
    (∀ q, (codec.requantize q).toInt = min (nearestInteger 53 q.toInt) maxWord) ∧
    (∀ q, codec.requantize q = q ↔
      (∃ x, value? x = some (q.toInt : ℚ)) ∨ q = Int64.maxValue) ∧
    (∀ q : Int64, |q.toInt| ≤ 2 ^ 53 → codec.requantize q = q) ∧
    (∀ p q, p ≤ q → codec.requantize p ≤ codec.requantize q) ∧
    (∀ q, codec.requantize (codec.requantize q) = codec.requantize q) ∧
    ∀ n m : ℤ, ∀ e : ℕ, |m| < 2 ^ 53 → |n - nearestInteger 53 n| ≤ |n - m * 2 ^ e| := by
  refine ⟨codec.toInt_requantize, ?_, ?_, ?_, ?_, ?_⟩
  · intro q
    rw [requantize_eq_iff, representable_toInt_iff]
  · intro q small
    exact requantize_of_representable (Binary64.representable_intCast small)
  · intro p q le
    rw [Int64.le_iff_toInt_le] at le ⊢
    rw [toInt_requantize, toInt_requantize]
    exact min_le_min (Binary64.nearestInteger_mono le) le_rfl
  · intro q
    exact requantize_eq_iff.mpr (codec.representable_requantize_or q)
  · intro n m e fits
    exact Rounding.abs_sub_nearestInteger_le (by decide) fits e

/-- Half way between two integers of 53 significant bits, a word goes to the even one, which may be
    pinned to the greatest word. -/
theorem requantize_rounds_ties :
    (default.requantize (2 ^ 53 + 1)).toInt = 2 ^ 53 ∧
      (default.requantize (2 ^ 53 + 3)).toInt = 2 ^ 53 + 4 ∧
      (default.requantize 9223372036854775296).toInt = maxWord ∧
      default.requantize Int64.maxValue = Int64.maxValue ∧
      default.requantize (default.requantize (2 ^ 53 + 1)) = default.requantize (2 ^ 53 + 1) := by
  obtain ⟨rounds, unchanged, -, -, again, -⟩ := requantize_rounds default
  refine ⟨?_, ?_, ?_, (unchanged _).mpr (.inr rfl), again _⟩
  all_goals rw [rounds]
  all_goals decide +kernel

end Codec

end FixedPointNet
