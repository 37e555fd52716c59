import FixedPointNet.Proofs.Exponential.Softmax
import FixedPointNet.Proofs.IntegerEngine.Predict
import FixedPointNet.Proofs.Network.Edits

/-!
# Predicted distributions

A head with several units stores the shares of its exponentials as words, which floors them, and a
prediction divides the words by their sum. As long as one word is positive this gives numbers that
are not negative and add up to one. With as many units as there are fractions of one, the shares may
all be floored to nothing; then there is no sum to divide by, and the prediction is zero throughout.
That happens exactly when the exponentials add up to more than `2 ^ B`.
-/

namespace FixedPointNet

open Binary64 (value? level rounded Numbers)
open Exponential (Splits scaledShare)

/-- Numbers that are not negative and add up to one, up to the rounding of their divisions. -/
def IsDistribution (row : List Float) : Prop :=
  ∃ shares, Numbers row shares ∧ (∀ p ∈ shares, 0 ≤ p) ∧ |shares.sum - 1| ≤ 1 / 2 ^ 52

namespace FixedPointModel

variable {codec : Codec} {row : List Int64} {words : List Int64} {ts : List ℚ} {S : ℚ}
  {B : Nat}

/-- The words of the head are the scaled shares. -/
theorem map_toInt_applyWords (splits : Splits (row.map codec.dequantize) ts S) :
    (Activation.softmax.applyWords codec row).map Int64.toInt =
      ts.map (scaledShare codec.fractionBits S) := by
  have shares := splits.softmax
  have between := splits.share_between
  rw [Activation.applyWords, List.map_map]
  have same := shares.map_eq (g := Int64.toInt ∘ codec.quantize)
    (f := fun v => ⌊v * 2 ^ codec.fractionBits⌋) fun x v member at_v => by
      obtain ⟨t, t_member, rfl⟩ := List.mem_map.mp member
      obtain ⟨nonneg, le_one⟩ := between t t_member
      exact Codec.toInt_quantize_of_share at_v nonneg le_one
  rw [same, List.map_map]
  rfl

/-- Every word of the head is between zero and one. -/
theorem applyWords_between (splits : Splits (row.map codec.dequantize) ts S) :
    ∀ q ∈ Activation.softmax.applyWords codec row,
      0 ≤ q.toInt ∧ q.toInt ≤ 2 ^ codec.fractionBits := by
  intro q member
  have stored := List.mem_map_of_mem (f := Int64.toInt) member
  rw [map_toInt_applyWords splits] at stored
  obtain ⟨t, t_member, share⟩ := List.mem_map.mp stored
  rw [← share]
  exact splits.scaledShare_between codec.fractionBits t t_member

/-- The words of the head have a small sum, however many they are. -/
theorem sum_applyWords_le (splits : Splits (row.map codec.dequantize) ts S)
    (few : codec.fractionBits ≤ 30) :
    ((Activation.softmax.applyWords codec row).map Int64.toInt).sum ≤ 2 ^ 47 := by
  have scale_le : (2 : ℤ) ^ codec.fractionBits ≤ 2 ^ 30 := pow_le_pow_right₀ one_le_two few
  have le := splits.sum_scaledShare_le few
  rw [map_toInt_applyWords splits]
  omega

/-- A row of words has exponentials and a sum of them. -/
theorem exists_splits_dequantize (codec : Codec) (nonempty : row ≠ []) :
    ∃ ts S, Splits (row.map codec.dequantize) ts S := by
  apply Exponential.exists_splits _ (by simpa using nonempty)
  intro x member
  obtain ⟨q, -, rfl⟩ := List.mem_map.mp member
  exact codec.exists_value?_dequantize q

theorem le_scale_iff (splits : Splits (row.map codec.dequantize) ts S) :
    Exponential.total (row.map codec.dequantize) ≤ codec.scale ↔ S ≤ 2 ^ codec.fractionBits := by
  rw [Binary64.le_iff, Binary64.level_of_value? splits.total,
    Binary64.level_of_value? codec.value?_scale, WithBot.coe_le_coe]
  exact and_iff_right WithBot.coe_ne_bot

theorem toInt_nonneg (nonneg : ∀ q ∈ words, 0 ≤ q.toInt) :
    ∀ k ∈ words.map Int64.toInt, 0 ≤ k := by
  intro k member
  obtain ⟨q, q_member, rfl⟩ := List.mem_map.mp member
  exact nonneg q q_member

theorem toInt_le_sum (nonneg : ∀ q ∈ words, 0 ≤ q.toInt) :
    ∀ k ∈ words.map Int64.toInt, k ≤ (words.map Int64.toInt).sum :=
  List.single_le_sum (toInt_nonneg nonneg)

/-- Words that are not negative stand for their quotients by the scale, and these are added exactly
    as long as the sum of the words has few bits. -/
theorem numbers_dequantize (codec : Codec) (nonneg : ∀ q ∈ words, 0 ≤ q.toInt)
    (small : (words.map Int64.toInt).sum < 2 ^ 53) :
    Numbers (words.map codec.dequantize)
        ((words.map Int64.toInt).map fun k : ℤ => (k : ℚ) / 2 ^ codec.fractionBits) ∧
      value? ((words.map codec.dequantize).foldl (· + ·) 0) =
        some ((words.map Int64.toInt).sum / 2 ^ codec.fractionBits : ℚ) := by
  have few := codec.fractionBits_lt
  have fits : ∀ q ∈ words, |q.toInt| < 2 ^ 53 := by
    intro q member
    have le := toInt_le_sum nonneg _ (List.mem_map_of_mem member)
    rw [abs_of_nonneg (nonneg q member)]
    omega
  have numbers : Numbers (words.map codec.dequantize)
      ((words.map Int64.toInt).map fun k : ℤ => (k : ℚ) / 2 ^ codec.fractionBits) := by
    rw [List.map_map]
    exact Binary64.numbers_map fun q member => codec.value?_dequantize (fits q member)
  exact ⟨numbers, Binary64.value?_sum_exact (by omega) numbers (toInt_nonneg nonneg) small⟩

/-- Words with a positive sum are divided by it. -/
theorem numbers_normalizeRow (nonneg : ∀ q ∈ words, 0 ≤ q.toInt)
    (small : (words.map Int64.toInt).sum < 2 ^ 53) (pos : 0 < (words.map Int64.toInt).sum) :
    Numbers (normalizeRow (words.map codec.dequantize))
      ((words.map Int64.toInt).map fun k : ℤ => rounded (k / (words.map Int64.toInt).sum)) := by
  obtain ⟨numbers, summed⟩ := numbers_dequantize codec nonneg small
  have scale : (0 : ℚ) < 2 ^ codec.fractionBits := pow_pos two_pos _
  have sum_pos : (0 : ℚ) < (words.map Int64.toInt).sum := by exact_mod_cast pos
  have total_pos := div_pos sum_pos scale
  have divides : ¬ ((words.map codec.dequantize).foldl (· + ·) 0 == 0) = true := by
    rw [Binary64.beq_iff, Binary64.level_of_value? summed, Binary64.level_zero, WithBot.coe_inj]
    exact fun same => total_pos.ne' same.2
  have each : ∀ q ∈ words,
      value? (codec.dequantize q / (words.map codec.dequantize).foldl (· + ·) 0) =
        some (rounded (q.toInt / (words.map Int64.toInt).sum)) := by
    intro q member
    have k_nonneg : (0 : ℚ) ≤ q.toInt := by exact_mod_cast nonneg q member
    have le := toInt_le_sum nonneg _ (List.mem_map_of_mem member)
    have k_le : (q.toInt : ℚ) ≤ (words.map Int64.toInt).sum := by exact_mod_cast le
    have fits : |q.toInt| < 2 ^ 53 := by
      rw [abs_of_nonneg (nonneg q member)]
      omega
    have divided := Binary64.level_div (codec.value?_dequantize fits) summed total_pos.ne'
    rw [div_div_div_cancel_right₀ scale.ne'] at divided
    apply Binary64.value?_of_abs_le divided
    rw [abs_of_nonneg (div_nonneg k_nonneg sum_pos.le)]
    exact ((div_le_one sum_pos).mpr k_le).trans (by norm_num)
  rw [normalizeRow, if_neg divides, List.map_map, List.map_map]
  exact Binary64.numbers_map each

/-- Without a positive word there is nothing to divide by, and the row stays zero. -/
theorem normalizeRow_of_zero (zero : ∀ q ∈ words, q.toInt = 0) :
    ∀ p ∈ normalizeRow (words.map codec.dequantize), value? p = some 0 := by
  have nonneg : ∀ q ∈ words, 0 ≤ q.toInt := fun q member => (zero q member).ge
  have empty : (words.map Int64.toInt).sum = 0 := by
    apply List.sum_eq_zero
    intro k member
    obtain ⟨q, q_member, rfl⟩ := List.mem_map.mp member
    exact zero q q_member
  obtain ⟨numbers, summed⟩ :=
    numbers_dequantize codec nonneg (empty.trans_lt (by norm_num))
  have no_sum : ((words.map codec.dequantize).foldl (· + ·) 0 == 0) = true := by
    rw [Binary64.beq_iff, Binary64.level_of_value? summed, Binary64.level_zero, empty,
      Int.cast_zero, zero_div]
    exact ⟨WithBot.coe_ne_bot, rfl⟩
  rw [normalizeRow, if_pos no_sum]
  intro p member
  obtain ⟨q, q_member, rfl⟩ := List.mem_map.mp member
  have fits : |q.toInt| < 2 ^ 53 := by
    rw [zero q q_member]
    norm_num
  rw [codec.value?_dequantize fits, zero q q_member, Int.cast_zero, zero_div]

/-- Words with a positive sum give a distribution. -/
theorem isDistribution_normalizeRow (nonneg : ∀ q ∈ words, 0 ≤ q.toInt)
    (small : (words.map Int64.toInt).sum ≤ 2 ^ 47) (pos : 0 < (words.map Int64.toInt).sum) :
    IsDistribution (normalizeRow (words.map codec.dequantize)) := by
  have sum_pos : (0 : ℚ) < (words.map Int64.toInt).sum := by exact_mod_cast pos
  have sum_le : ((words.map Int64.toInt).sum : ℚ) ≤ 2 ^ 47 := by exact_mod_cast small
  refine ⟨_, numbers_normalizeRow nonneg (by omega) pos, ?_, ?_⟩
  · intro p member
    obtain ⟨k, k_member, rfl⟩ := List.mem_map.mp member
    have k_nonneg : (0 : ℚ) ≤ k := by exact_mod_cast toInt_nonneg nonneg k k_member
    exact Binary64.rounded_nonneg (div_nonneg k_nonneg sum_pos.le)
  · have near := Binary64.abs_sum_rounded_sub_le (toInt_nonneg nonneg) (toInt_le_sum nonneg) pos
    have whole : ((words.map Int64.toInt).sum : ℚ) *
        (1 / ((words.map Int64.toInt).sum * 2 ^ 53) + 1 / 2 ^ 100) =
          1 / 2 ^ 53 + (words.map Int64.toInt).sum / 2 ^ 100 := by
      field_simp
    rw [div_self sum_pos.ne', whole] at near
    linarith

/-- What a head with several units makes of the words that its activation takes: the words that it
    stores, and the row that is predicted from them. -/
structure Renormalizes (codec : Codec) (logits words : List Int64) (row : List Float) : Prop where
  /-- The stored words stand for numbers between zero and one. -/
  between : ∀ q ∈ words, 0 ≤ q.toInt ∧ q.toInt ≤ 2 ^ codec.fractionBits
  /-- One of them is positive exactly when the exponentials add up to at most the scale. -/
  exists_pos_iff : (∃ q ∈ words, 0 < q.toInt) ↔
    Exponential.total (logits.map codec.dequantize) ≤ codec.scale
  /-- So it is with no more units than the scale. -/
  exists_pos_of_length : words.length ≤ 2 ^ codec.fractionBits → ∃ q ∈ words, 0 < q.toInt
  /-- With a positive word the prediction is a distribution. -/
  distribution : (∃ q ∈ words, 0 < q.toInt) → IsDistribution row
  /-- Without one it is zero throughout. -/
  vanishes : (¬ ∃ q ∈ words, 0 < q.toInt) → ∀ p ∈ row, value? p = some 0

theorem exists_pos_iff_of_map_toInt (same : words.map Int64.toInt = ts.map (scaledShare B S)) :
    (∃ q ∈ words, 0 < q.toInt) ↔ ∃ t ∈ ts, 0 < scaledShare B S t := by
  have mapped : (∃ k ∈ words.map Int64.toInt, 0 < k) ↔ ∃ k ∈ ts.map (scaledShare B S), 0 < k := by
    rw [same]
  simpa only [List.mem_map, exists_exists_and_eq_and] using mapped

theorem renormalizes (few : codec.fractionBits ≤ 30) (nonempty : row ≠ []) :
    Renormalizes codec row (Activation.softmax.applyWords codec row)
      (normalizeRow ((Activation.softmax.applyWords codec row).map codec.dequantize)) := by
  obtain ⟨ts, S, splits⟩ := exists_splits_dequantize codec nonempty
  have same := map_toInt_applyWords splits
  have counts : (∃ q ∈ Activation.softmax.applyWords codec row, 0 < q.toInt) ↔
      S ≤ 2 ^ codec.fractionBits := by
    rw [exists_pos_iff_of_map_toInt same, splits.exists_scaledShare_pos_iff few]
  have between := applyWords_between splits
  have nonneg : ∀ q ∈ Activation.softmax.applyWords codec row, 0 ≤ q.toInt :=
    fun q member => (between q member).1
  have scale_le : (2 : ℕ) ^ codec.fractionBits ≤ 2 ^ 30 := pow_le_pow_right₀ one_le_two few
  refine ⟨between, counts.trans (le_scale_iff splits).symm, ?_, ?_, ?_⟩
  · intro length
    rw [Layer.length_applyWords] at length
    rw [counts]
    have row_few : (row.map codec.dequantize).length < 2 ^ 53 := by
      rw [List.length_map]
      omega
    have le := splits.le_length row_few
    rw [List.length_map] at le
    exact le.trans (by exact_mod_cast length)
  · rintro ⟨q, member, pos⟩
    have sum_pos : 0 < ((Activation.softmax.applyWords codec row).map Int64.toInt).sum :=
      pos.trans_le (toInt_le_sum nonneg _ (List.mem_map_of_mem member))
    exact isDistribution_normalizeRow nonneg (sum_applyWords_le splits few) sum_pos
  · intro none
    apply normalizeRow_of_zero
    intro q member
    exact le_antisymm (not_lt.mp fun pos => none ⟨q, member, pos⟩) (nonneg q member)

/-- Equal sums of more units than the scale leave no positive word. -/
theorem Renormalizes.not_exists_pos {k : Nat} {q : Int64} {predicted : List Float}
    (renormalizes : Renormalizes codec (.replicate k q) words predicted)
    (many : 2 ^ codec.fractionBits < k) (few : k < 2 ^ 53) : ¬ ∃ q ∈ words, 0 < q.toInt := by
  obtain ⟨v, at_v⟩ := codec.exists_value?_dequantize q
  have at_total := Exponential.value?_total_replicate at_v few
  have above : (2 : ℚ) ^ codec.fractionBits < k := by exact_mod_cast many
  rw [renormalizes.exists_pos_iff, List.map_replicate, Binary64.le_iff,
    Binary64.level_of_value? at_total, Binary64.level_of_value? codec.value?_scale,
    WithBot.coe_le_coe]
  exact fun le => above.not_ge le.2

open Network

variable {m : FixedPointModel} {xs : List Float32}

/-- The words that the activation of the head takes for one sample. -/
def logits (m : FixedPointModel) (xs : List Float32) : List Int64 :=
  match m.network.layers.getLast? with
  | none => []
  | some head =>
      (List.range head.outputs).map fun o => Int64.ofInt <|
        head.exactPreactivation m.codec (exactRow m.codec m.network.layers.dropLast
          ((xs.map Binary32.widen).map m.codec.quantize)) o

/-- The head of several units applies the table softmax to its sums. -/
theorem headWords_eq (wellFormed : m.network.WellFormed) (several : 1 < m.outputs)
    (xs : List Float32) :
    m.headWords xs = Activation.softmax.applyWords m.codec (m.logits xs) ∧
      (m.logits xs).length = m.outputs := by
  have nonempty := wellFormed.layers_ne_nil
  have last := List.getLast?_eq_some_getLast nonempty
  have width : (m.network.layers.getLast nonempty).outputs = m.outputs := by
    rw [FixedPointModel.outputs, Network.outputs, last]
  have softmax : (m.network.layers.getLast nonempty).activation = .softmax :=
    (wellFormed.sound.head _ last).2.mpr (by omega)
  have run : m.headWords xs = (m.network.layers.getLast nonempty).exactForward m.codec
      (exactRow m.codec m.network.layers.dropLast
        ((xs.map Binary32.widen).map m.codec.quantize)) := by
    have split := List.dropLast_append_getLast nonempty
    rw [headWords, exactRow]
    conv_lhs => rw [← split, List.foldl_append]
    rfl
  rw [run, Layer.exactForward, softmax, logits, last]
  exact ⟨rfl, by simpa using width⟩

/-- Every sample of a batch is renormalized on its own. -/
theorem renormalizes_sample (wellFormed : m.network.WellFormed) (several : 1 < m.outputs)
    (few : m.codec.fractionBits ≤ 30) (xs : List Float32) :
    Renormalizes m.codec (m.logits xs) (m.headWords xs) (m.scores (m.headWords xs)) := by
  obtain ⟨head, length⟩ := headWords_eq wellFormed several xs
  have nonempty : m.logits xs ≠ [] := List.ne_nil_of_length_pos (by omega)
  rw [scores, if_pos several, head]
  exact renormalizes few nonempty

/-- A head with several units stores shares and predicts the shares of their sum. The row of a
    sample is a distribution exactly when its exponentials add up to at most `2 ^ B`, as they do
    with no more than `2 ^ B` units; otherwise it is zero throughout. -/
theorem renormalizes_of_accepted {given : Nat} {literals : List (Layer Parameter)}
    {n : Network Parameter} (accepted : ofLayers given literals = .ok n) (several : 1 < n.outputs)
    {codec : Codec} (few : codec.fractionBits ≤ 30) {features : List Float32}
    (wide : n.inputs ≠ 0) (whole : features.length % n.inputs = 0) :
    ∃ m, (ofNetwork codec n).outcome = .ok m ∧
      (m.infer (m.quantized features)).outcome =
        .ok ⟨features.length / n.inputs, n.outputs,
          ((samplesOf n.inputs features).map m.headWords).flatten⟩ ∧
      (m.predict features).outcome =
        .ok ((samplesOf n.inputs features).map fun xs => m.scores (m.headWords xs)).flatten ∧
      ∀ xs ∈ samplesOf n.inputs features,
        (m.headWords xs).length = n.outputs ∧
          Renormalizes codec (m.logits xs) (m.headWords xs) (m.scores (m.headWords xs)) := by
  have wellFormed := wellFormed_stored (wellFormed_of_ofLayers_eq_ok accepted) codec
  have inferred := infer_quantized (m := stored codec n) wellFormed whole
  have predicted := predict_eq (m := stored codec n) wellFormed wide whole
  rw [outputs_stored] at inferred
  refine ⟨_, outcome_ofNetwork codec n, inferred, predicted, ?_⟩
  intro xs member
  have width := length_headWords wellFormed (length_of_mem_samplesOf whole member)
  rw [outputs_stored] at width
  exact ⟨width, renormalizes_sample wellFormed (by rwa [outputs_stored]) few xs⟩

/-- A head of two units on one feature. -/
def pair : Network Parameter :=
  ⟨1, [⟨1, 2, [⟨0x3F800000⟩, ⟨0x00000000⟩], [⟨0x00000000⟩, ⟨0x00000000⟩], .softmax⟩]⟩

theorem renormalizes_of_accepted_pair :
    ofLayers pair.inputs pair.layers = .ok pair ∧ 1 < pair.outputs ∧
      Codec.default.fractionBits ≤ 30 ∧ pair.inputs ≠ 0 ∧ [(1 : Float32)].length % pair.inputs = 0 ∧
      ∃ m row, (ofNetwork .default pair).outcome = .ok m ∧ (m.predict [1]).outcome = .ok row ∧
        IsDistribution row := by
  have accepted : ofLayers pair.inputs pair.layers = .ok pair := rfl
  have few : Codec.default.fractionBits ≤ 30 := by decide
  have whole : [(1 : Float32)].length % pair.inputs = 0 := by decide
  have sample : samplesOf pair.inputs [1] = [[1]] := rfl
  obtain ⟨m, made, -, predicted, rows⟩ :=
    renormalizes_of_accepted accepted (by decide) few (by decide) whole
  rw [sample] at predicted rows
  obtain ⟨units, renormalizes⟩ := rows [1] List.mem_cons_self
  have some_word := renormalizes.exists_pos_of_length (by rw [units]; decide)
  refine ⟨accepted, by decide, few, by decide, whole, m, _, made, predicted, ?_⟩
  simpa using renormalizes.distribution some_word

/-- A head of three units that are always equal. -/
def uniform : Network Parameter :=
  ⟨1, [⟨1, 3, [⟨0x00000000⟩, ⟨0x00000000⟩, ⟨0x00000000⟩],
    [⟨0x00000000⟩, ⟨0x00000000⟩, ⟨0x00000000⟩], .softmax⟩]⟩

/-- The format with one fractional bit. -/
def halves : Codec :=
  ⟨1, by decide⟩

/-- Thirds are floored to nothing in a format of halves, and the prediction adds up to zero. -/
theorem uniform_vanishes :
    ofLayers uniform.inputs uniform.layers = .ok uniform ∧ uniform.outputs = 3 ∧
      ∃ m words row, (ofNetwork halves uniform).outcome = .ok m ∧
        (m.infer (m.quantized [0])).outcome = .ok ⟨1, 3, words⟩ ∧
        (m.predict [0]).outcome = .ok row ∧ row.length = 3 ∧
        (¬ ∃ q ∈ words, 0 < q.toInt) ∧ ∀ p ∈ row, value? p = some 0 := by
  have accepted : ofLayers uniform.inputs uniform.layers = .ok uniform := rfl
  have wellFormed := wellFormed_stored (wellFormed_of_ofLayers_eq_ok accepted) halves
  have whole : [(0 : Float32)].length % (stored halves uniform).network.inputs = 0 := by decide
  have sample : samplesOf (stored halves uniform).network.inputs [0] = [[0]] := rfl
  have inferred := infer_quantized wellFormed whole
  have predicted := predict_eq wellFormed (by decide) whole
  have width : ((stored halves uniform).headWords [0]).length = 3 := length_headWords wellFormed rfl
  have equal : (stored halves uniform).logits [0] = .replicate 3 0 := by decide +kernel
  have renormalizes := renormalizes_sample wellFormed (by decide) (by decide) [0]
  rw [equal] at renormalizes
  have none := renormalizes.not_exists_pos (by decide) (by decide)
  rw [sample, List.map_singleton, List.flatten_singleton] at inferred predicted
  exact ⟨accepted, rfl, _, _, _, outcome_ofNetwork halves uniform, inferred, predicted,
    by rw [length_scores, width], none, renormalizes.vanishes none⟩

end FixedPointModel

end FixedPointNet
