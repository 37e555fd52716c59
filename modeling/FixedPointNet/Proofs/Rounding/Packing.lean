import FixedPointNet.Proofs.Rounding.Machine

/-!
# Packed floats

A float in the canonical form of a format is packed without a loss, unless its exponent is too
large, in which case it becomes infinite. What is unpacked is in canonical form.
-/

namespace FixedPointNet.Rounding

open Float.Model (Format UnpackedFloat totalExponent)
open Float.Model.UnpackedFloat

variable {spec : Format}

theorem two_pow_exponentBits (spec : Format) :
    2 ^ spec.exponentBits = 2 * spec.exponentBias + 2 := by
  have positive : 0 < 2 ^ (spec.exponentBits - 1) := Nat.two_pow_pos _
  have doubled : 2 ^ spec.exponentBits = 2 ^ (spec.exponentBits - 1) * 2 := by
    rw [← pow_succ, Nat.sub_add_cancel spec.he]
  unfold Format.exponentBias
  omega

theorem minExponent_eq (spec : Format) :
    spec.minExponent = 1 - (spec.exponentBias + spec.mantissaBitsWithoutImplicit) := by
  have positive : 0 < 2 ^ (spec.exponentBits - 1) := Nat.two_pow_pos _
  have bias : ((spec.exponentBias : Nat) : ℤ) = 2 ^ (spec.exponentBits - 1) - 1 := by
    unfold Format.exponentBias
    push_cast [positive]
    ring
  rw [Format.minExponent, bias, Format.mantissaBits]
  push_cast
  ring

theorem zero_ne_allOnes (spec : Format) : (0#_ : BitVec spec.exponentBits) ≠ -1#_ := by
  intro same
  have exponents := congrArg BitVec.toNat same
  have capacity := two_pow_exponentBits spec
  rw [BitVec.toNat_zero, BitVec.neg_one_eq_allOnes, BitVec.toNat_allOnes] at exponents
  omega

@[simp] theorem unpack_packedInfinity (s : Sign) :
    unpack spec (packedInfinity spec s) = .infinity s := by
  simp [unpack, packedInfinity]

theorem unpack_subnormal (s : Sign) {m : Nat} (pos : 0 < m)
    (below : m < 2 ^ spec.mantissaBitsWithoutImplicit) :
    unpack spec (packComponents spec s 0#_ (BitVec.ofNat _ m)) =
      .finite s m spec.minExponent pos := by
  have mantissa : (BitVec.ofNat spec.mantissaBitsWithoutImplicit m).toNat = m := by
    rw [BitVec.toNat_ofNat, Nat.mod_eq_of_lt below]
  have nonzero : BitVec.ofNat spec.mantissaBitsWithoutImplicit m ≠ 0#_ := by
    intro zero
    rw [zero] at mantissa
    exact pos.ne mantissa
  simp only [unpack, unpackMantissa_packComponents, unpackExponent_packComponents,
    unpackSign_packComponents, Sign.ofBitVec_toBitVec, if_neg (zero_ne_allOnes spec), if_pos,
    dif_neg nonzero, mantissa, minExponent_eq]
  simp
  omega

theorem unpack_normal (s : Sign) {m exponent : Nat} (pos : 0 < m) (exponent_pos : 0 < exponent)
    (fits : exponent + 1 < 2 ^ spec.exponentBits) (leading : m.log2 + 1 = spec.mantissaBits) :
    unpack spec (packComponents spec s (BitVec.ofNat _ exponent) (BitVec.ofNat _ m)) =
      .finite s m (exponent - (spec.exponentBias + spec.mantissaBitsWithoutImplicit)) pos := by
  have stored : (BitVec.ofNat spec.exponentBits exponent).toNat = exponent := by
    rw [BitVec.toNat_ofNat, Nat.mod_eq_of_lt (by omega)]
  have not_zero : BitVec.ofNat spec.exponentBits exponent ≠ 0#_ := by
    intro zero
    rw [zero] at stored
    exact exponent_pos.ne stored
  have not_ones : BitVec.ofNat spec.exponentBits exponent ≠ -1#_ := by
    intro ones
    rw [ones, BitVec.neg_one_eq_allOnes, BitVec.toNat_allOnes] at stored
    omega
  have restored : (1#1 ++ BitVec.ofNat spec.mantissaBitsWithoutImplicit m).toNat = m := by
    have bits : m.log2 = spec.mantissaBitsWithoutImplicit := by
      unfold Format.mantissaBits at leading
      omega
    have low := Nat.log2_self_le pos.ne'
    have high : m < 2 ^ (m.log2 + 1) := Nat.lt_log2_self
    rw [pow_succ] at high
    have cleared : m % 2 ^ m.log2 = m - 2 ^ m.log2 := by
      rw [Nat.mod_eq_sub_mod low, Nat.mod_eq_of_lt (by omega)]
    rw [BitVec.toNat_append, ← Nat.shiftLeft_add_eq_or_of_lt (BitVec.isLt _), Nat.shiftLeft_eq,
      BitVec.toNat_ofNat, BitVec.toNat_ofNat, ← bits, cleared]
    omega
  simp only [unpack, unpackMantissa_packComponents, unpackExponent_packComponents,
    unpackSign_packComponents, Sign.ofBitVec_toBitVec, if_neg not_ones, if_neg not_zero, restored,
    stored]

/-- A finite float in canonical form either fits its format or becomes infinite when packed. -/
theorem unpack_pack_finite {s : Sign} {m : Nat} {e : ℤ} {pos : 0 < m}
    (canonical : Canonical spec (.finite s m e pos)) :
    unpack spec (pack spec (.finite s m e pos)) =
      if spec.exponentBias < e + spec.mantissaBitsWithoutImplicit then .infinity s
      else .finite s m e pos := by
  have capacity := two_pow_exponentBits spec
  have least := minExponent_eq spec
  have bits : spec.mantissaBits = 1 + spec.mantissaBitsWithoutImplicit := rfl
  rw [Canonical, Format.targetExponent, totalExponent] at canonical
  rw [pack]
  by_cases large : spec.exponentBias < e + spec.mantissaBitsWithoutImplicit
  · have overflows : 2 ^ spec.exponentBits ≤
        (e + spec.exponentBias + spec.mantissaBitsWithoutImplicit).toNat + 1 := by omega
    rw [if_pos large, if_pos overflows, unpack_packedInfinity]
  · have fits : ¬ 2 ^ spec.exponentBits ≤
        (e + spec.exponentBias + spec.mantissaBitsWithoutImplicit).toNat + 1 := by omega
    rw [if_neg large, if_neg fits]
    by_cases leading : m.log2 + 1 = spec.mantissaBits
    · rw [if_pos leading, unpack_normal s pos (by omega) (by omega) leading]
      congr 1
      omega
    · have below : m < 2 ^ spec.mantissaBitsWithoutImplicit := by
        rw [← Nat.log2_lt pos.ne']
        omega
      rw [if_neg leading, unpack_subnormal s pos below]
      congr 1
      omega

/-- A finite float has a canonical exponent that fits the format. -/
def Packed (spec : Format) : UnpackedFloat → Prop
  | .finite s m e pos => Canonical spec (.finite s m e pos) ∧
      e + spec.mantissaBitsWithoutImplicit ≤ spec.exponentBias
  | _ => True

/-- A mantissa with its leading bit restored. -/
theorem log2_append {k : Nat} (mantissa : BitVec k) : (1#1 ++ mantissa).toNat.log2 = k := by
  have below : mantissa.toNat < 2 ^ k := mantissa.isLt
  rw [Nat.log2_eq_iff (by simp), BitVec.toNat_append, ← Nat.shiftLeft_add_eq_or_of_lt below,
    Nat.shiftLeft_eq, BitVec.toNat_ofNat, pow_succ]
  omega

theorem packed_unpack (wide : 0 < spec.exponentBias) (bits : BitVec spec.numBits) :
    Packed spec (unpack spec bits) := by
  have capacity := two_pow_exponentBits spec
  have least := minExponent_eq spec
  have width : spec.mantissaBits = 1 + spec.mantissaBitsWithoutImplicit := rfl
  unfold unpack
  simp only
  split_ifs with ones zero subnormal zero
  · trivial
  · trivial
  · trivial
  · have below : (unpackMantissa bits).toNat.log2 < spec.mantissaBitsWithoutImplicit :=
      (Nat.log2_lt (by simpa [← BitVec.toNat_inj] using zero)).mpr (BitVec.isLt _)
    rw [Packed, Canonical, subnormal, BitVec.toNat_zero, Format.targetExponent, totalExponent]
    omega
  · have positive : 0 < (unpackExponent bits).toNat := by
      apply Nat.pos_of_ne_zero
      intro zero
      exact subnormal (BitVec.eq_of_toNat_eq (by rw [zero, BitVec.toNat_zero]))
    have not_ones : (unpackExponent bits).toNat ≠ 2 ^ spec.exponentBits - 1 := by
      intro same
      apply ones
      apply BitVec.eq_of_toNat_eq
      rw [same, BitVec.neg_one_eq_allOnes, BitVec.toNat_allOnes]
    have below : (unpackExponent bits).toNat < 2 ^ spec.exponentBits := BitVec.isLt _
    rw [Packed, Canonical, Format.targetExponent, totalExponent, log2_append]
    omega

end FixedPointNet.Rounding
