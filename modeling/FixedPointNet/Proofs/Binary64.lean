import FixedPointNet.Binary64
import FixedPointNet.Proofs.Rounding.Arithmetic

/-!
# Double precision on the number line

The arithmetic of floats computes with the numbers they stand for and rounds. Where one operand is a
number and the operation is monotone in the other, it is monotone on all floats: infinities stay
where they are, and what is not a number stays below everything.
-/

namespace FixedPointNet.Binary64

open Float.Model (Format UnpackedFloat)
open Rounding (Packed)

/-- The number of a finite float. -/
def value? (x : Float) : Option ℚ :=
  Rounding.value? x.toModel.unpack

/-- The level of a float among all floats. -/
def level (x : Float) : WithBot ℚ :=
  Rounding.level .binary64 x.toModel.unpack

/-- The least power of two above all finite floats. -/
abbrev limit : ℚ :=
  Rounding.limit .binary64

/-- The level of the float that is nearest to a number. -/
abbrev rounded : ℚ → ℚ :=
  Rounding.rounded .binary64

theorem wide : 0 < Format.binary64.exponentBias := by decide

theorem packed (x : Float) : Packed .binary64 x.toModel.unpack :=
  Rounding.packed_unpack wide _

variable {x y c : Float} {v w : ℚ}

theorem level_of_value? (value : value? x = some v) : level x = v :=
  Rounding.level_of_value? value

/-- A float is not a number, an infinity, or a number below the limit. -/
theorem level_cases (x : Float) : level x = ⊥ ∨ level x = (-limit : ℚ) ∨ level x = limit ∨
    ∃ v, value? x = some v ∧ level x = v ∧ |v| < limit := by
  rcases (packed x).value?_cases with nan | ⟨s, infinite⟩ | ⟨v, value, below⟩
  · exact .inl (by rw [level, nan, Rounding.level])
  · cases s with
    | negative => exact .inr (.inl (by rw [level, infinite]; rfl))
    | positive => exact .inr (.inr (.inl (by rw [level, infinite]; rfl)))
  · exact .inr (.inr (.inr ⟨v, value, level_of_value? value, below⟩))

theorem value?_of_level (at_v : level x = v) (below : |v| < limit) : value? x = some v := by
  rw [abs_lt] at below
  rcases level_cases x with nan | bottom | top | ⟨v', value, at_v', -⟩
  · rw [nan] at at_v
    cases at_v
  · rw [bottom, WithBot.coe_inj] at at_v
    exact absurd at_v below.1.ne
  · rw [top, WithBot.coe_inj] at at_v
    exact absurd at_v below.2.ne'
  · rw [at_v', WithBot.coe_inj] at at_v
    rw [value, at_v]

/-- Exactly the floats strictly between the infinities have a number. -/
theorem value?_eq_some_iff : value? x = some v ↔ level x = v ∧ |v| < limit := by
  constructor
  · intro value
    exact ⟨level_of_value? value, (packed x).abs_lt value⟩
  · rintro ⟨at_v, below⟩
    exact value?_of_level at_v below

theorem isNaN_iff : x.isNaN = true ↔ level x = ⊥ := by
  rw [level, Rounding.level_eq_bot_iff]
  change x.toModel.unpack.isNaN = true ↔ _
  cases x.toModel.unpack <;> simp [UnpackedFloat.isNaN]

theorem isNaN_eq_false_iff : x.isNaN = false ↔ level x ≠ ⊥ := by
  rw [← Bool.not_eq_true, isNaN_iff]

theorem lt_iff : x < y ↔ level x ≠ ⊥ ∧ level x < level y := by
  rw [level, level, ← Rounding.lt_iff (packed x) (packed y)]
  change decide (x.toModel < y.toModel) = true ↔ _
  rw [decide_eq_true_iff]
  rfl

theorem le_iff : x ≤ y ↔ level x ≠ ⊥ ∧ level x ≤ level y := by
  rw [level, level, ← Rounding.le_iff (packed x) (packed y)]
  change decide (x.toModel ≤ y.toModel) = true ↔ _
  rw [decide_eq_true_iff]
  rfl

theorem beq_iff : (x == y) = true ↔ level x ≠ ⊥ ∧ level x = level y := by
  rw [level, level, ← Rounding.beq_iff (packed x) (packed y)]
  rfl

theorem isFinite_iff : x.isFinite = true ↔ ∃ v, value? x = some v := by
  change x.toModel.unpack.isFinite = true ↔ _
  unfold value?
  cases x.toModel.unpack <;> simp [UnpackedFloat.isFinite, Rounding.value?]

theorem level_ofInt (n : Int) : level (ofInt n) = rounded n := by
  have rounds := Rounding.packedLevel_normalize wide n 0 .positive
  rw [zpow_zero, mul_one] at rounds
  exact rounds

theorem level_ofNat (n : Nat) : level (ofNat n) = rounded n :=
  level_ofInt n

theorem level_add (at_v : value? x = some v) (at_w : value? y = some w) :
    level (x + y) = rounded (v + w) :=
  Rounding.packedLevel_add wide (packed x) (packed y) at_v at_w

theorem level_sub (at_v : value? x = some v) (at_w : value? y = some w) :
    level (x - y) = rounded (v - w) :=
  Rounding.packedLevel_sub wide (packed x) (packed y) at_v at_w

theorem level_mul (at_v : value? x = some v) (at_w : value? y = some w) :
    level (x * y) = rounded (v * w) :=
  Rounding.packedLevel_mul wide (packed x) (packed y) at_v at_w

theorem level_div (at_v : value? x = some v) (at_w : value? y = some w) (nonzero : w ≠ 0) :
    level (x / y) = rounded (v / w) :=
  Rounding.packedLevel_div wide (packed x) (packed y) at_v at_w nonzero

/-- What a function on numbers does to the levels of floats: its results are rounded, and infinities
    and what is not a number stay. -/
def lift (f : ℚ → ℚ) : WithBot ℚ → WithBot ℚ :=
  WithBot.map fun v => if v ≤ -limit then -limit else if limit ≤ v then limit else rounded (f v)

theorem lift_mono {f : ℚ → ℚ} (mono : Monotone f) : Monotone (lift f) := by
  rw [lift, WithBot.monotone_map_iff]
  intro v w le
  have positive := Rounding.limit_pos .binary64
  have v_between := abs_le.mp (Rounding.abs_rounded_le .binary64 (f v))
  have w_between := abs_le.mp (Rounding.abs_rounded_le .binary64 (f w))
  have between := Rounding.rounded_mono .binary64 (mono le)
  dsimp only
  split_ifs <;> linarith

theorem lift_of_abs_lt (f : ℚ → ℚ) (below : |v| < limit) : lift f v = rounded (f v) := by
  rw [abs_lt] at below
  rw [lift, WithBot.map_coe, if_neg (not_le.mpr below.1), if_neg (not_le.mpr below.2)]

theorem lift_infinity (f : ℚ → ℚ) (s : UnpackedFloat.Sign) :
    lift f (Rounding.level .binary64 (.infinity s)) = Rounding.level .binary64 (.infinity s) := by
  have positive := Rounding.limit_pos .binary64
  rw [Rounding.level, lift, WithBot.map_coe]
  cases s with
  | negative => rw [Rounding.signed, if_pos le_rfl]
  | positive => rw [Rounding.signed, if_neg (by linarith), if_pos le_rfl]

/-- A function on floats follows a function on numbers, once it does so on finite floats and leaves
    infinities and what is not a number as they are. -/
theorem level_eq_lift {f : Float → Float} {g : ℚ → ℚ}
    (nan : ∀ x, x.toModel.unpack = .notANumber → (f x).toModel.unpack = .notANumber)
    (infinite : ∀ x s, x.toModel.unpack = .infinity s → (f x).toModel.unpack = .infinity s)
    (number : ∀ x v, value? x = some v → level (f x) = rounded (g v)) (x : Float) :
    level (f x) = lift g (level x) := by
  rcases (packed x).value?_cases with special | ⟨s, special⟩ | ⟨v, value, below⟩
  · rw [level, level, special, nan x special]
    rfl
  · rw [level, level, special, infinite x s special, lift_infinity]
  · rw [number x v value, level_of_value? value, lift_of_abs_lt g below]

theorem unpack_pack_infinity (s : UnpackedFloat.Sign) :
    (Float.Model.pack (.infinity s)).unpack = .infinity s :=
  Rounding.unpack_packedInfinity s

theorem unpack_pack_notANumber : (Float.Model.pack .notANumber).unpack = .notANumber :=
  UnpackedFloat.unpack_packedNaN

/-- A positive number is a float with a mantissa and a positive sign. -/
theorem exists_unpack_of_pos (at_w : value? c = some w) (pos : 0 < w) :
    ∃ m e nonzero, c.toModel.unpack = .finite .positive m e nonzero := by
  unfold value? at at_w
  cases unpacked : c.toModel.unpack with
  | infinity s => rw [unpacked] at at_w; cases at_w
  | notANumber => rw [unpacked] at at_w; cases at_w
  | zero s =>
    rw [unpacked] at at_w
    cases at_w
    exact absurd pos (lt_irrefl 0)
  | finite s m e nonzero =>
    rw [unpacked] at at_w
    cases at_w
    have magnitude : (0 : ℚ) < m * 2 ^ e := mul_pos (Nat.cast_pos.mpr nonzero) (zpow_pos two_pos e)
    cases s with
    | negative => exact absurd pos (neg_neg_of_pos magnitude).le.not_gt
    | positive => exact ⟨m, e, nonzero, rfl⟩

theorem level_mul_of_pos (at_w : value? c = some w) (pos : 0 < w) (x : Float) :
    level (x * c) = lift (· * w) (level x) := by
  obtain ⟨m, e, nonzero, unpacked⟩ := exists_unpack_of_pos at_w pos
  apply level_eq_lift (f := (· * c))
  · intro x special
    change (Float.Model.pack (.mul _ x.toModel.unpack c.toModel.unpack)).unpack = _
    rw [special, unpacked]
    exact unpack_pack_notANumber
  · intro x s special
    change (Float.Model.pack (.mul _ x.toModel.unpack c.toModel.unpack)).unpack = _
    rw [special, unpacked]
    cases s <;> exact unpack_pack_infinity _
  · intro x v at_v
    exact level_mul at_v at_w

theorem value?_mul_eq_none (infinite : value? x = none) (at_w : value? c = some w) (pos : 0 < w) :
    value? (x * c) = none := by
  rw [Option.eq_none_iff_forall_ne_some]
  intro v at_v
  have below := (packed (x * c)).abs_lt at_v
  have product := level_mul_of_pos at_w pos x
  rw [level_of_value? at_v] at product
  rcases (packed x).value?_cases with special | ⟨s, special⟩ | ⟨v', value, -⟩
  · rw [level, special] at product
    cases product
  · rw [level, special, lift_infinity, Rounding.level, WithBot.coe_inj] at product
    rw [product] at below
    cases s <;> simp [Rounding.signed, abs_of_pos (Rounding.limit_pos .binary64)] at below
  · rw [value?, value] at infinite
    cases infinite

theorem level_div_of_pos (at_w : value? c = some w) (pos : 0 < w) (x : Float) :
    level (x / c) = lift (· / w) (level x) := by
  obtain ⟨m, e, nonzero, unpacked⟩ := exists_unpack_of_pos at_w pos
  apply level_eq_lift (f := (· / c))
  · intro x special
    change (Float.Model.pack (.div _ x.toModel.unpack c.toModel.unpack)).unpack = _
    rw [special, unpacked]
    exact unpack_pack_notANumber
  · intro x s special
    change (Float.Model.pack (.div _ x.toModel.unpack c.toModel.unpack)).unpack = _
    rw [special, unpacked]
    cases s <;> exact unpack_pack_infinity _
  · intro x v at_v
    exact level_div at_v at_w pos.ne'

theorem level_value_add (at_w : value? c = some w) (x : Float) :
    level (c + x) = lift (w + ·) (level x) := by
  apply level_eq_lift (f := (c + ·))
  · intro x special
    change (Float.Model.pack (.add _ c.toModel.unpack x.toModel.unpack)).unpack = _
    rw [special]
    cases c.toModel.unpack <;> exact unpack_pack_notANumber
  · intro x s special
    change (Float.Model.pack (.add _ c.toModel.unpack x.toModel.unpack)).unpack = _
    unfold value? at at_w
    rw [special]
    cases unpacked : c.toModel.unpack with
    | infinity s => rw [unpacked] at at_w; cases at_w
    | notANumber => rw [unpacked] at at_w; cases at_w
    | zero s => exact unpack_pack_infinity _
    | finite s m e nonzero => exact unpack_pack_infinity _
  · intro x v at_v
    exact level_add at_w at_v

theorem level_add_value (at_w : value? c = some w) (x : Float) :
    level (x + c) = lift (· + w) (level x) := by
  apply level_eq_lift (f := (· + c))
  · intro x special
    change (Float.Model.pack (.add _ x.toModel.unpack c.toModel.unpack)).unpack = _
    rw [special]
    cases c.toModel.unpack <;> exact unpack_pack_notANumber
  · intro x s special
    change (Float.Model.pack (.add _ x.toModel.unpack c.toModel.unpack)).unpack = _
    unfold value? at at_w
    rw [special]
    cases unpacked : c.toModel.unpack with
    | infinity s => rw [unpacked] at at_w; cases at_w
    | notANumber => rw [unpacked] at at_w; cases at_w
    | zero s => exact unpack_pack_infinity _
    | finite s m e nonzero => exact unpack_pack_infinity _
  · intro x v at_v
    exact level_add at_v at_w

theorem level_sub_value (at_w : value? c = some w) (x : Float) :
    level (x - c) = lift (· - w) (level x) := by
  apply level_eq_lift (f := (· - c))
  · intro x special
    change (Float.Model.pack (.sub _ x.toModel.unpack c.toModel.unpack)).unpack = _
    rw [special]
    cases c.toModel.unpack <;> exact unpack_pack_notANumber
  · intro x s special
    change (Float.Model.pack (.sub _ x.toModel.unpack c.toModel.unpack)).unpack = _
    unfold value? at at_w
    rw [special]
    cases unpacked : c.toModel.unpack with
    | infinity s => rw [unpacked] at at_w; cases at_w
    | notANumber => rw [unpacked] at at_w; cases at_w
    | zero s => exact unpack_pack_infinity _
    | finite s m e nonzero => exact unpack_pack_infinity _
  · intro x v at_v
    exact level_sub at_v at_w

theorem floorScaled_eq (n e : Int) : floorScaled n e = ⌊(n * 2 ^ e : ℚ)⌋ := by
  unfold floorScaled
  split_ifs with nonneg
  · obtain ⟨k, rfl⟩ := Int.eq_ofNat_of_zero_le nonneg
    rw [zpow_natCast, Int.toNat_natCast, Nat.pow_eq, eq_comm, Int.floor_eq_iff]
    push_cast
    constructor <;> linarith
  · obtain ⟨k, negated⟩ := Int.eq_ofNat_of_zero_le (show 0 ≤ -e by omega)
    obtain rfl : e = -k := by omega
    have floored := Rat.floor_intCast_div_natCast n (2 ^ k)
    rw [neg_neg, Int.toNat_natCast, Nat.pow_eq, ← floored, zpow_neg, zpow_natCast]
    push_cast
    rw [div_eq_mul_inv]

theorem value?_eq_parts? (x : Float) :
    value? x = (parts? x).map fun (n, e) => (n * 2 ^ e : ℚ) := by
  unfold parts? value?
  cases x.toModel.unpack with
  | infinity s => rfl
  | notANumber => rfl
  | zero s => simp [Rounding.value?]
  | finite s m e pos =>
    simp only [Option.map_some, Rounding.value?, Rounding.signed_mul, Rounding.signed_eq_apply]

theorem floor?_eq (x : Float) : floor? x = (value? x).map Int.floor := by
  rw [value?_eq_parts?, floor?, Option.map_map]
  congr 1
  funext parts
  exact floorScaled_eq parts.1 parts.2

theorem level_neg (at_v : level x = v) : level (-x) = (-v : ℚ) := by
  have keeps := (packed x).neg.packedLevel_eq
  rw [level] at at_v
  change Rounding.packedLevel .binary64 x.toModel.unpack.neg = _
  rw [keeps]
  cases unpacked : x.toModel.unpack with
  | notANumber => rw [unpacked] at at_v; cases at_v
  | zero s =>
    rw [unpacked] at at_v
    cases at_v
    rfl
  | infinity s =>
    rw [unpacked, Rounding.level, WithBot.coe_inj] at at_v
    rw [UnpackedFloat.neg, Rounding.level, Rounding.neg_signed, at_v]
  | finite s m e pos =>
    rw [unpacked, Rounding.level, WithBot.coe_inj] at at_v
    rw [UnpackedFloat.neg, Rounding.level, Rounding.neg_signed, at_v]

/-- The integer nearest to a number, halves away from zero. -/
def halfAway (v : ℚ) : ℤ :=
  if 0 ≤ v then ⌊v + 1 / 2⌋ else -⌊-v + 1 / 2⌋

theorem halfAway_le_halfAway (le : v ≤ w) : halfAway v ≤ halfAway w := by
  unfold halfAway
  split_ifs with v_nonneg w_nonneg w_nonneg
  · exact Int.floor_mono (by linarith)
  · linarith
  · have v_side : 0 ≤ ⌊-v + 1 / 2⌋ := Int.floor_nonneg.mpr (by linarith)
    have w_side : 0 ≤ ⌊w + 1 / 2⌋ := Int.floor_nonneg.mpr (by linarith)
    omega
  · exact neg_le_neg (Int.floor_mono (by linarith))

/-- Less than one half away from an integer, there is no other. -/
theorem halfAway_eq {n : ℤ} (near : |v - n| < 1 / 2) : halfAway v = n := by
  obtain ⟨low, high⟩ := abs_lt.mp near
  unfold halfAway
  split_ifs
  · rw [Int.floor_eq_iff]
    constructor <;> linarith
  · rw [neg_eq_iff_eq_neg, Int.floor_eq_iff]
    push_cast
    constructor <;> linarith

@[simp] theorem halfAway_intCast (n : Int) : halfAway n = n :=
  halfAway_eq (by norm_num)

theorem halfAway_neg (v : ℚ) : halfAway (-v) = -halfAway v := by
  rcases lt_trichotomy v 0 with neg | rfl | pos
  · rw [halfAway, halfAway, if_pos (by linarith), if_neg (by linarith), neg_neg]
  · have none : halfAway 0 = 0 := halfAway_intCast 0
    rw [neg_zero, none, neg_zero]
  · rw [halfAway, halfAway, if_neg (by linarith), if_pos (by linarith), neg_neg]

theorem halfAway_signed (s : UnpackedFloat.Sign) (v : ℚ) :
    (halfAway (Rounding.signed s v) : ℚ) = Rounding.signed s (halfAway v) := by
  cases s with
  | negative =>
    rw [Rounding.signed, halfAway_neg, Int.cast_neg]
    rfl
  | positive => rfl

theorem roundScaled_eq (m : Nat) {e : Int} (neg : e < 0) :
    (roundScaled m e : ℤ) = halfAway (m * 2 ^ e) := by
  obtain ⟨k, negated⟩ := Int.eq_ofNat_of_zero_le (show 0 ≤ -e - 1 by omega)
  obtain rfl : e = -((k + 1 : Nat) : ℤ) := by omega
  have shift : (-(-((k + 1 : Nat) : ℤ))).toNat = k + 1 := by omega
  have nonneg : (0 : ℚ) ≤ m * 2 ^ (-((k + 1 : Nat) : ℤ)) :=
    mul_nonneg m.cast_nonneg (zpow_nonneg two_pos.le _)
  have floored := Rat.floor_intCast_div_natCast (m + 2 ^ k) (2 ^ (k + 1))
  have sum : (m * 2 ^ (-((k + 1 : Nat) : ℤ)) + 1 / 2 : ℚ) =
      ((m + 2 ^ k : ℤ) : ℚ) / (2 ^ (k + 1) : Nat) := by
    rw [zpow_neg, zpow_natCast]
    push_cast
    rw [pow_succ]
    field_simp
  rw [roundScaled, if_neg (by omega), shift, halfAway, if_pos nonneg, sum, floored,
    Nat.add_sub_cancel, Nat.pow_eq, Nat.pow_eq]
  push_cast
  rfl

theorem level_roundHalfAway (x : Float) :
    level (roundHalfAway x) = lift (fun v => halfAway v) (level x) := by
  apply level_eq_lift
  · intro x special
    simp only [roundHalfAway, special]
  · intro x s special
    simp only [roundHalfAway, special]
  · intro x v at_v
    have stays := (packed x).rounded_eq at_v
    have at_v' := at_v
    unfold value? at at_v
    unfold roundHalfAway
    cases unpacked : x.toModel.unpack with
    | infinity s => rw [unpacked] at at_v; cases at_v
    | notANumber => rw [unpacked] at at_v; cases at_v
    | zero s =>
      rw [unpacked] at at_v
      cases at_v
      have none : halfAway 0 = 0 := halfAway_intCast 0
      simp only
      rw [none, level_of_value? at_v', Int.cast_zero, rounded, Rounding.rounded_zero]
    | finite s m e nonzero =>
      rw [unpacked] at at_v
      cases at_v
      simp only
      split_ifs with nonneg
      · obtain ⟨k, rfl⟩ := Int.eq_ofNat_of_zero_le nonneg
        have whole : (m * 2 ^ (k : ℤ) : ℚ) = ((m * 2 ^ k : ℤ) : ℚ) := by
          push_cast
          rfl
        rw [halfAway_signed, whole, halfAway_intCast, ← whole, rounded, stays]
        exact level_of_value? at_v'
      · have magnitude : level (ofNat (roundScaled m e)) = rounded (halfAway (m * 2 ^ e)) := by
          rw [level_ofNat, ← Int.cast_natCast, roundScaled_eq m (by omega)]
        rw [halfAway_signed, rounded, Rounding.rounded_signed]
        cases s with
        | negative => exact level_neg magnitude
        | positive => exact magnitude

theorem abs_lt_limit (at_v : value? x = some v) : |v| < limit :=
  (packed x).abs_lt at_v

theorem level_zero : level 0 = (0 : ℚ) := rfl

theorem floorClamp_of_value (lo hi : Int) (at_v : value? x = some v) :
    floorClamp lo hi x = max lo (min hi ⌊v⌋) := by
  rw [floorClamp, floor?_eq, at_v]
  rfl

theorem value?_eq_none_of_level (at_v : level x = v) (large : limit ≤ |v|) : value? x = none := by
  rw [Option.eq_none_iff_forall_ne_some]
  intro w value
  rw [level_of_value? value, WithBot.coe_inj] at at_v
  rw [← at_v] at large
  exact absurd (abs_lt_limit value) large.not_gt

theorem floorClamp_of_level_eq_bot (lo hi : Int) (nan : level x = ⊥) : floorClamp lo hi x = 0 := by
  have none : value? x = none := by
    rw [Option.eq_none_iff_forall_ne_some]
    intro w value
    rw [level_of_value? value] at nan
    cases nan
  rw [floorClamp, floor?_eq, none]
  simp only [Option.map_none, if_pos (isNaN_iff.mpr nan)]

/-- The floor of a float, pinned to limits that no infinity lies between. -/
theorem floorClamp_of_level {lo hi : Int} (ordered : lo ≤ hi) (low : -limit ≤ lo)
    (high : hi ≤ limit) (at_v : level x = v) : floorClamp lo hi x = max lo (min hi ⌊v⌋) := by
  have positive := Rounding.limit_pos .binary64
  have number : ¬ x.isNaN = true := by
    rw [isNaN_iff, at_v]
    exact WithBot.coe_ne_bot
  have below_iff : x < 0 ↔ v < 0 := by
    rw [lt_iff, level_zero, at_v, WithBot.coe_lt_coe]
    exact and_iff_right WithBot.coe_ne_bot
  rcases level_cases x with nan | bottom | top | ⟨w, value, at_w, -⟩
  · rw [nan] at at_v
    cases at_v
  · obtain rfl : v = -limit := WithBot.coe_inj.mp (at_v.symm.trans bottom)
    have large : limit ≤ |(-limit : ℚ)| := by rw [abs_neg, abs_of_pos positive]
    have floored : ⌊(-limit : ℚ)⌋ ≤ lo := Int.cast_le.mp ((Int.floor_le (-limit)).trans low)
    rw [floorClamp, floor?_eq, value?_eq_none_of_level at_v large]
    simp only [Option.map_none, if_neg number, if_pos (below_iff.mpr (neg_neg_of_pos positive))]
    omega
  · obtain rfl : v = limit := WithBot.coe_inj.mp (at_v.symm.trans top)
    have large : limit ≤ |limit| := by rw [abs_of_pos positive]
    have floored : hi ≤ ⌊limit⌋ := Int.le_floor.mpr high
    rw [floorClamp, floor?_eq, value?_eq_none_of_level at_v large]
    simp only [Option.map_none, if_neg number, if_neg (below_iff.not.mpr positive.not_gt)]
    omega
  · obtain rfl : v = w := WithBot.coe_inj.mp (at_v.symm.trans at_w)
    exact floorClamp_of_value lo hi value

theorem neg_limit_le_zero : -limit ≤ ((0 : Int) : ℚ) := by
  rw [Int.cast_zero]
  exact (neg_neg_of_pos (Rounding.limit_pos _)).le

/-- The floor of a float, between zero and a limit, does not decrease with the float. -/
theorem floorClamp_mono {hi : Int} (nonneg : 0 ≤ hi) (high : hi ≤ limit) (le : level x ≤ level y) :
    floorClamp 0 hi x ≤ floorClamp 0 hi y := by
  cases at_w : level y with
  | bot =>
    rw [at_w, le_bot_iff] at le
    rw [floorClamp_of_level_eq_bot 0 hi le, floorClamp_of_level_eq_bot 0 hi at_w]
  | coe w =>
    rw [floorClamp_of_level nonneg neg_limit_le_zero high at_w]
    cases at_v : level x with
    | bot =>
      rw [floorClamp_of_level_eq_bot 0 hi at_v]
      exact le_max_left _ _
    | coe v =>
      rw [at_v, at_w, WithBot.coe_le_coe] at le
      rw [floorClamp_of_level nonneg neg_limit_le_zero high at_v]
      have floors := Int.floor_mono le
      omega

/-- What is pinned to limits on both sides of zero is between them. -/
theorem floorClamp_between {lo hi : Int} (nonpos : lo ≤ 0) (nonneg : 0 ≤ hi) (x : Float) :
    lo ≤ floorClamp lo hi x ∧ floorClamp lo hi x ≤ hi := by
  rw [floorClamp]
  split
  · omega
  · split_ifs <;> omega

/-- A natural number is the floor of a float from it up to below the next one. -/
theorem toNat_floorClamp_eq {hi : Int} {k : Nat} (at_v : value? x = some v) (le : k ≤ v)
    (lt : v < k + 1) (fits : k ≤ hi) : (floorClamp 0 hi x).toNat = k := by
  have floor : ⌊v⌋ = k := by
    rw [Int.floor_eq_iff]
    exact ⟨by exact_mod_cast le, by exact_mod_cast lt⟩
  rw [floorClamp_of_value 0 hi at_v, floor]
  omega

/-- What bounds a float from above bounds its floor. -/
theorem floorClamp_le_of_level_le {hi : Int} (nonneg : 0 ≤ hi) (high : hi ≤ limit) (pos : 0 ≤ v)
    (le : level x ≤ v) : (floorClamp 0 hi x : ℚ) ≤ v := by
  cases at_w : level x with
  | bot =>
    rw [floorClamp_of_level_eq_bot 0 hi at_w]
    exact_mod_cast pos
  | coe w =>
    rw [at_w, WithBot.coe_le_coe] at le
    have floored : ((min hi ⌊w⌋ : ℤ) : ℚ) ≤ v :=
      (Int.cast_le.mpr (min_le_right _ _)).trans ((Int.floor_le w).trans le)
    rw [floorClamp_of_level nonneg neg_limit_le_zero high at_w, Int.cast_max]
    exact max_le (by exact_mod_cast pos) floored

end FixedPointNet.Binary64
