import FixedPointNet.Proofs.Codec

/-!
# Storing real numbers

The check for saturation and the conversion to a word are two computations, and both scale before
they take a floor. They agree on all floats: what does not saturate is stored as its exact floor and
read back less than one unit below, and everything else is pinned to the nearer limit or, if it is
not a number, stored as zero. A batch reports how many of its values saturate.
-/

namespace FixedPointNet

namespace Binary64

theorem abs_lt_limit_or {x : Float} {u : ℚ} (at_u : level x = u) :
    |u| < limit ∨ u = limit ∨ u = -limit := by
  rcases level_cases x with nan | bottom | top | ⟨v, -, at_v, below⟩
  · rw [nan] at at_u
    cases at_u
  · exact .inr (.inr (WithBot.coe_inj.mp (at_u.symm.trans bottom)))
  · exact .inr (.inl (WithBot.coe_inj.mp (at_u.symm.trans top)))
  · obtain rfl : u = v := WithBot.coe_inj.mp (at_u.symm.trans at_v)
    exact .inl below

end Binary64

namespace Codec

open Binary64 (value? level limit)

variable {codec : Codec} {x y : Float} {u v : ℚ}

/-- Positive infinity, or a number whose exact floor is greater than all words. -/
def TooLarge (codec : Codec) (x : Float) : Prop :=
  (x == Binary64.infinity) = true ∨
    ∃ v, value? x = some v ∧ maxWord < ⌊v * 2 ^ codec.fractionBits⌋

/-- Negative infinity, or a number whose exact floor is less than all words. -/
def TooSmall (codec : Codec) (x : Float) : Prop :=
  (x == Binary64.negInfinity) = true ∨
    ∃ v, value? x = some v ∧ ⌊v * 2 ^ codec.fractionBits⌋ < minWord

/-- How a float is stored and read back. -/
structure Stores (codec : Codec) (x : Float) : Prop where
  saturates_iff : codec.saturates x = true ↔
    x.isNaN = true ∨ codec.TooLarge x ∨ codec.TooSmall x
  /-- What does not saturate loses less than one unit. -/
  floor : codec.saturates x = false → ∃ v w, value? x = some v ∧
    (codec.quantize x).toInt = ⌊v * 2 ^ codec.fractionBits⌋ ∧
    value? (codec.dequantize (codec.quantize x)) = some w ∧
    -(1 / 2 ^ codec.fractionBits) < w - v ∧ w - v ≤ 0
  tooLarge : codec.TooLarge x → (codec.quantize x).toInt = maxWord
  tooSmall : codec.TooSmall x → (codec.quantize x).toInt = minWord
  notNumber : x.isNaN = true → (codec.quantize x).toInt = 0

/-- What a batch of floats is stored as, and the warning that counts those that saturate. -/
structure Reports (codec : Codec) (xs : List Float) : Prop where
  words : (codec.quantizeAll xs).outcome = .ok (xs.map codec.quantize)
  silent_iff : (codec.quantizeAll xs).events = [] ↔ ∀ x ∈ xs, codec.saturates x = false
  warning : (∃ x ∈ xs, codec.saturates x = true) →
    (codec.quantizeAll xs).events.map Event.line? = [some (.warn,
    s!"{xs.countP codec.saturates} of {xs.length} values exceed the Q{codec.fractionBits} range " ++
      "and were pinned to the i64 limits")]

theorem one_le_two_pow (codec : Codec) : (1 : ℚ) ≤ 2 ^ codec.fractionBits :=
  one_le_pow₀ one_le_two

theorem saturates_of_value?_eq_none (none : value? (x * codec.scale) = none) :
    codec.saturates x = true := by
  simp [saturates, Binary64.floor?_eq, none]

theorem level_mul_scale_of_isNaN (nan : x.isNaN = true) : level (x * codec.scale) = ⊥ := by
  rw [Binary64.level_mul_of_pos codec.value?_scale (pow_pos two_pos _), Binary64.isNaN_iff.mp nan]
  rfl

theorem saturates_of_isNaN (nan : x.isNaN = true) : codec.saturates x = true := by
  apply saturates_of_value?_eq_none
  rw [Option.eq_none_iff_forall_ne_some]
  intro w value
  rw [Binary64.value?_eq_some_iff, level_mul_scale_of_isNaN nan] at value
  cases value.1

/-- A float saturates where its floor is no word. An infinity counts as the limit of its sign. -/
theorem saturates_iff_of_level (at_u : level x = u) : codec.saturates x = true ↔
    ⌊u * 2 ^ codec.fractionBits⌋ < minWord ∨ maxWord < ⌊u * 2 ^ codec.fractionBits⌋ := by
  obtain ⟨low, high⟩ := words_below_limit
  have positive := Rounding.limit_pos .binary64
  have scaled := codec.level_mul_scale at_u
  generalize u * 2 ^ codec.fractionBits = w at scaled ⊢
  by_cases below : |w| < limit
  · obtain ⟨above_bottom, below_top⟩ := abs_lt.mp below
    rw [min_eq_right below_top.le, max_eq_right above_bottom.le] at scaled
    simp [saturates, Binary64.floor?_eq, Binary64.value?_of_level scaled below]
  · -- the product is infinite, and neither infinity lies between two words
    have outside : ⌊w⌋ < minWord ∨ maxWord < ⌊w⌋ := by
      rcases le_abs.mp (not_lt.mp below) with top | bottom
      · right
        exact Int.le_floor.mpr (by push_cast; linarith)
      · left
        exact Int.floor_lt.mpr (by linarith)
    have infinite : limit ≤ |max (-limit) (min limit w)| := by
      rcases le_abs.mp (not_lt.mp below) with top | bottom
      · rw [min_eq_left top, max_eq_right (by linarith), abs_of_pos positive]
      · rw [min_eq_right (by linarith), max_eq_left (by linarith), abs_neg, abs_of_pos positive]
    simp [outside, saturates_of_value?_eq_none (Binary64.value?_eq_none_of_level scaled infinite)]

theorem floor_infinite (codec : Codec) : maxWord < ⌊limit * 2 ^ codec.fractionBits⌋ ∧
    ⌊-limit * 2 ^ codec.fractionBits⌋ < minWord := by
  obtain ⟨low, high⟩ := words_below_limit
  have positive := Rounding.limit_pos .binary64
  have grows : limit ≤ limit * 2 ^ codec.fractionBits :=
    le_mul_of_one_le_right positive.le codec.one_le_two_pow
  constructor
  · exact Int.le_floor.mpr (by push_cast; linarith)
  · exact Int.floor_lt.mpr (by linarith)

theorem tooLarge_iff_of_level (at_u : level x = u) :
    codec.TooLarge x ↔ maxWord < ⌊u * 2 ^ codec.fractionBits⌋ := by
  have infinity : level Binary64.infinity = limit := rfl
  have ordered : minWord ≤ maxWord := by decide
  obtain ⟨top, bottom⟩ := codec.floor_infinite
  have unfolded : codec.TooLarge x ↔
      u = limit ∨ |u| < limit ∧ maxWord < ⌊u * 2 ^ codec.fractionBits⌋ := by
    simp [TooLarge, Binary64.beq_iff, Binary64.value?_eq_some_iff, at_u, infinity]
  rw [unfolded]
  constructor
  · rintro (rfl | ⟨-, above⟩)
    · exact top
    · exact above
  · intro above
    rcases Binary64.abs_lt_limit_or at_u with below | rfl | rfl
    · exact .inr ⟨below, above⟩
    · exact .inl rfl
    · omega

theorem tooSmall_iff_of_level (at_u : level x = u) :
    codec.TooSmall x ↔ ⌊u * 2 ^ codec.fractionBits⌋ < minWord := by
  have infinity : level Binary64.negInfinity = (-limit : ℚ) := rfl
  have ordered : minWord ≤ maxWord := by decide
  obtain ⟨top, bottom⟩ := codec.floor_infinite
  have unfolded : codec.TooSmall x ↔
      u = -limit ∨ |u| < limit ∧ ⌊u * 2 ^ codec.fractionBits⌋ < minWord := by
    simp [TooSmall, Binary64.beq_iff, Binary64.value?_eq_some_iff, at_u, infinity]
  rw [unfolded]
  constructor
  · rintro (rfl | ⟨-, beneath⟩)
    · exact bottom
    · exact beneath
  · intro beneath
    rcases Binary64.abs_lt_limit_or at_u with below | rfl | rfl
    · exact .inr ⟨below, beneath⟩
    · omega
    · exact .inl rfl

theorem not_tooLarge_of_isNaN (nan : x.isNaN = true) : ¬ codec.TooLarge x := by
  rw [Binary64.isNaN_iff] at nan
  simp [TooLarge, Binary64.beq_iff, Binary64.value?_eq_some_iff, nan]

theorem not_tooSmall_of_isNaN (nan : x.isNaN = true) : ¬ codec.TooSmall x := by
  rw [Binary64.isNaN_iff] at nan
  simp [TooSmall, Binary64.beq_iff, Binary64.value?_eq_some_iff, nan]

theorem toInt_quantize_of_isNaN (nan : x.isNaN = true) : (codec.quantize x).toInt = 0 := by
  rw [toInt_quantize_eq_floorClamp,
    Binary64.floorClamp_of_level_eq_bot _ _ (level_mul_scale_of_isNaN nan)]

/-- What is stored as its floor is read back less than one unit below. -/
theorem exists_value?_dequantize_quantize (at_v : value? x = some v)
    (stored : (codec.quantize x).toInt = ⌊v * 2 ^ codec.fractionBits⌋) :
    ∃ w, value? (codec.dequantize (codec.quantize x)) = some w ∧
      -(1 / 2 ^ codec.fractionBits) < w - v ∧ w - v ≤ 0 := by
  have positive : (0 : ℚ) < 2 ^ codec.fractionBits := pow_pos two_pos _
  have scaled := Binary64.representable_mul_two_pow (Binary64.representable at_v) codec.fractionBits
  have fits := Binary64.representable_floor scaled
  have low := Int.floor_le (v * 2 ^ codec.fractionBits)
  have high := Int.lt_floor_add_one (v * 2 ^ codec.fractionBits)
  rw [← stored] at fits low high
  have below := (div_le_iff₀ positive).mpr low
  have above := (lt_div_iff₀ positive).mpr high
  rw [add_div] at above
  exact ⟨_, codec.value?_dequantize_of_representable fits, by linarith, by linarith⟩

theorem stores (codec : Codec) (x : Float) : codec.Stores x := by
  by_cases nan : x.isNaN = true
  · have saturated : codec.saturates x = true := saturates_of_isNaN nan
    exact {
      saturates_iff := iff_of_true saturated (.inl nan)
      floor := by simp [saturated]
      tooLarge := fun large => absurd large (not_tooLarge_of_isNaN nan)
      tooSmall := fun small => absurd small (not_tooSmall_of_isNaN nan)
      notNumber := toInt_quantize_of_isNaN }
  · obtain ⟨u, at_u⟩ := WithBot.ne_bot_iff_exists.mp (Binary64.isNaN_iff.not.mp nan)
    have at_u := at_u.symm
    have ordered : minWord ≤ maxWord := by decide
    have saturates : codec.saturates x = true ↔ _ := saturates_iff_of_level at_u
    have large : codec.TooLarge x ↔ _ := tooLarge_iff_of_level at_u
    have small : codec.TooSmall x ↔ _ := tooSmall_iff_of_level at_u
    have word : (codec.quantize x).toInt = _ := toInt_quantize at_u
    refine ⟨?_, ?_, ?_, ?_, fun nan' => absurd nan' nan⟩
    · rw [saturates, large, small, or_iff_right nan, or_comm]
    · intro unsaturated
      have within := saturates.not.mp (by simp [unsaturated])
      obtain ⟨top, bottom⟩ := codec.floor_infinite
      have at_v : value? x = some u := by
        rcases Binary64.abs_lt_limit_or at_u with below | rfl | rfl
        · exact Binary64.value?_of_level at_u below
        · omega
        · omega
      have stored : (codec.quantize x).toInt = ⌊u * 2 ^ codec.fractionBits⌋ := by
        omega
      obtain ⟨w, back, error⟩ := exists_value?_dequantize_quantize at_v stored
      exact ⟨u, w, at_v, stored, back, error⟩
    · rw [large]
      omega
    · rw [small]
      omega

/-- The order of floats is kept by the words they are stored as. -/
theorem toInt_quantize_le (codec : Codec) (le : x ≤ y) :
    (codec.quantize x).toInt ≤ (codec.quantize y).toInt := by
  have scale : (0 : ℚ) ≤ 2 ^ codec.fractionBits := (pow_pos two_pos _).le
  obtain ⟨number, le⟩ := Binary64.le_iff.mp le
  obtain ⟨u, at_u⟩ := WithBot.ne_bot_iff_exists.mp number
  obtain ⟨v, at_v⟩ := WithBot.ne_bot_iff_exists.mp (ne_bot_of_le_ne_bot number le)
  rw [← at_u, ← at_v, WithBot.coe_le_coe] at le
  have floors := Int.floor_mono (mul_le_mul_of_nonneg_right le scale)
  rw [toInt_quantize at_u.symm, toInt_quantize at_v.symm]
  exact max_le_max le_rfl (min_le_min le_rfl floors)

theorem reports (codec : Codec) (xs : List Float) : codec.Reports xs := by
  have counted : 0 < xs.countP codec.saturates ↔ ∃ x ∈ xs, codec.saturates x = true :=
    List.countP_pos_iff
  refine ⟨rfl, ?_, ?_⟩
  · have none : (codec.quantizeAll xs).events = [] ↔ ¬ 0 < xs.countP codec.saturates := by
      simp [quantizeAll, saturation]
    rw [none, counted]
    simp
  · intro some_saturates
    have event : (codec.quantizeAll xs).events =
        [.saturated (xs.countP codec.saturates) xs.length codec.fractionBits] :=
      if_pos (counted.mpr some_saturates)
    rw [event]
    rfl

/-- Every float is stored as its exact floor or saturates, single precision is widened exactly
    before that, the order of floats is kept, and a batch warns of exactly those of its values that
    saturate. -/
theorem stores_exactly (codec : Codec) :
    (∀ x, codec.Stores x) ∧
    (∀ x : Float32, value? (Binary32.widen x) = Binary32.value? x ∧
      (Binary32.value? x = none → (Binary32.widen x).toModel.unpack = x.toModel.unpack)) ∧
    (∀ x y : Float, x ≤ y → (codec.quantize x).toInt ≤ (codec.quantize y).toInt) ∧
    ∀ xs, codec.Reports xs := by
  refine ⟨codec.stores, fun x => ⟨?_, Binary32.unpack_widen⟩, fun x y => codec.toInt_quantize_le,
    codec.reports⟩
  cases at_v : Binary32.value? x with
  | none => exact Binary32.value?_widen_eq_none at_v
  | some v => exact Binary32.value?_widen at_v

/-- The format with the most fractional bits: words run from -2 to just below 2. -/
def finest : Codec :=
  ⟨62, by decide⟩

/-- The lower end of the words is one of them, the upper end is not. -/
theorem stores_exactly_finest :
    finest.saturates (-2) = false ∧ (finest.quantize (-2)).toInt = minWord ∧
      finest.TooLarge 2 ∧ (finest.quantize 2).toInt = maxWord ∧
      (finest.quantize (0 / 0)).toInt = 0 ∧ (-2 : Float) ≤ 2 ∧
      (finest.quantize (-2)).toInt ≤ (finest.quantize 2).toInt ∧
      (finest.quantizeAll [-2, 2, 0 / 0]).events.map Event.line? = [some (.warn,
        "2 of 3 values exceed the Q62 range and were pinned to the i64 limits")] := by
  obtain ⟨stores, -, ordered, reports⟩ := stores_exactly finest
  have lower : finest.saturates (-2) = false := by decide +kernel
  have upper : finest.saturates 2 = true := by decide +kernel
  have two : value? 2 = some 2 := by decide +kernel
  have large : finest.TooLarge 2 := .inr ⟨2, two, by decide +kernel⟩
  have le : (-2 : Float) ≤ 2 := by decide +kernel
  have counted : List.countP finest.saturates [-2, 2, 0 / 0] = 2 := by decide +kernel
  obtain ⟨v, -, at_v, stored, -⟩ := (stores (-2)).floor lower
  have minus_two : value? (-2) = some (-2) := by decide +kernel
  obtain rfl : v = -2 := Option.some.inj (at_v.symm.trans minus_two)
  have least : ⌊(-2 * 2 ^ finest.fractionBits : ℚ)⌋ = minWord := by decide +kernel
  have warned := (reports [-2, 2, 0 / 0]).warning ⟨2, by simp, upper⟩
  rw [counted] at warned
  exact ⟨lower, stored.trans least, large, (stores 2).tooLarge large,
    (stores (0 / 0)).notNumber (by decide +kernel), le, ordered _ _ le, warned⟩

end Codec

end FixedPointNet
