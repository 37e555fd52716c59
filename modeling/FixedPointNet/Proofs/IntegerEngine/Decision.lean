import FixedPointNet.Proofs.Classification.Greatest
import FixedPointNet.Proofs.IntegerEngine.Distribution
import FixedPointNet.Proofs.Network.Evaluation

/-!
# Decisions are made on integers

A predicted class is read off real numbers, but it is the class that the words of the head decide
for. A single word is compared with half the scale. Of several words the first greatest one decides:
a row is divided by its sum, which is small enough that rounding neither exchanges nor joins the
quotients of different words, and a row without a sum is zero as a whole.
-/

namespace FixedPointNet

open Binary64 (value? level rounded Numbers)
open Classification (FirstGreatest argmax decision classes)

variable {codec : Codec} {words : List Int64} {row : List Float}

namespace Binary64

variable {k l n : ℤ}

/-- Rounding keeps the shares of different integers apart. -/
theorem rounded_div_lt_rounded_div (nonneg : 0 ≤ k) (lt : k < l) (le : l ≤ n) (few : n ≤ 2 ^ 47) :
    rounded (k / n) < rounded (l / n) := by
  have k_nonneg : (0 : ℚ) ≤ k := by exact_mod_cast nonneg
  have n_pos : (0 : ℚ) < n := by exact_mod_cast nonneg.trans_lt (lt.trans_le le)
  have next : (k : ℚ) + 1 ≤ l := by exact_mod_cast lt
  have l_le : (l : ℚ) ≤ n := by exact_mod_cast le
  have n_le : (n : ℚ) ≤ 2 ^ 47 := by exact_mod_cast few
  have part : (1 : ℚ) / 2 ^ 47 ≤ 1 / n := one_div_le_one_div_of_le n_pos n_le
  have apart : (k : ℚ) / n + 1 / n ≤ l / n := by
    rw [← add_div]
    exact div_le_div_of_nonneg_right next n_pos.le
  have low : (0 : ℚ) ≤ k / n := div_nonneg k_nonneg n_pos.le
  have high : (l : ℚ) / n ≤ 1 := (div_le_one n_pos).mpr l_le
  have k_near := abs_le.mp (abs_rounded_sub_le_of_abs_le (v := k / n)
    (abs_le.mpr ⟨by linarith, by linarith⟩))
  have l_near := abs_le.mp (abs_rounded_sub_le_of_abs_le (v := l / n)
    (abs_le.mpr ⟨by linarith, by linarith⟩))
  linarith

/-- Integers are ordered as their rounded shares are. -/
theorem rounded_div_le_rounded_div_iff (k_nonneg : 0 ≤ k) (k_le : k ≤ n) (l_nonneg : 0 ≤ l)
    (few : n ≤ 2 ^ 47) : rounded (k / n) ≤ rounded (l / n) ↔ k ≤ l := by
  constructor
  · intro le
    by_contra! lt
    exact (rounded_div_lt_rounded_div l_nonneg lt k_le few).not_ge le
  · intro le
    have n_nonneg : (0 : ℚ) ≤ n := by exact_mod_cast k_nonneg.trans k_le
    exact Rounding.rounded_mono _ (div_le_div_of_nonneg_right (Int.cast_le.mpr le) n_nonneg)

end Binary64

namespace Codec

/-- An integer of few bits is a word and stands for its quotient by the scale. -/
theorem level_dequantize_ofInt (codec : Codec) {k : ℤ} (low : -2 ^ 53 < k) (high : k < 2 ^ 53) :
    (Int64.ofInt k).toInt = k ∧ level (codec.dequantize (Int64.ofInt k)) =
      ((k / 2 ^ codec.fractionBits : ℚ) : WithBot ℚ) := by
  have stored : (Int64.ofInt k).toInt = k := Int64.toInt_ofInt_of_le (by omega) (by omega)
  have fits : |(Int64.ofInt k).toInt| < 2 ^ 53 := by
    rw [stored]
    exact abs_lt.mpr ⟨low, high⟩
  have value := codec.value?_dequantize fits
  rw [stored] at value
  exact ⟨stored, Binary64.level_of_value? value⟩

/-- A word stands for at least one half when it is at least half the scale. -/
theorem half_le_dequantize_iff (codec : Codec) (some_bits : 1 ≤ codec.fractionBits)
    (few : codec.fractionBits ≤ 30) (q : Int64) :
    (0.5 : Float) ≤ codec.dequantize q ↔ 2 ^ (codec.fractionBits - 1) ≤ q.toInt := by
  obtain ⟨b, bits⟩ := Nat.exists_eq_add_of_le' some_bits
  have half_value : value? 0.5 = some (1 / 2) := by decide +kernel
  have half_le : (2 : ℤ) ^ b ≤ 2 ^ 30 := pow_le_pow_right₀ one_le_two (by omega)
  have half_pos : (0 : ℤ) < 2 ^ b := pow_pos two_pos b
  have positive : (0 : ℚ) < 2 ^ b := pow_pos two_pos b
  -- half the scale stands for one half, and the word before it for less
  obtain ⟨stored, at_half⟩ :=
    codec.level_dequantize_ofInt (show -2 ^ 53 < 2 ^ b by omega) (by omega)
  obtain ⟨stored', at_before⟩ :=
    codec.level_dequantize_ofInt (show -2 ^ 53 < 2 ^ b - 1 by omega) (by omega)
  have half : ((2 ^ b : ℤ) : ℚ) / 2 ^ codec.fractionBits = 1 / 2 := by
    rw [bits, pow_succ]
    push_cast
    field_simp
  have before : ((2 ^ b - 1 : ℤ) : ℚ) / 2 ^ codec.fractionBits < 1 / 2 := by
    rw [← half]
    exact div_lt_div_of_pos_right (Int.cast_lt.mpr (sub_one_lt _)) (pow_pos two_pos _)
  rw [bits, Nat.add_sub_cancel, Binary64.le_iff, Binary64.level_of_value? half_value,
    and_iff_right WithBot.coe_ne_bot]
  constructor
  · intro above
    by_contra! below
    have le : q ≤ Int64.ofInt (2 ^ b - 1) := by
      rw [Int64.le_iff_toInt_le, stored']
      omega
    have ends := above.trans (Binary64.le_iff.mp (codec.dequantize_le_dequantize le)).2
    rw [at_before, WithBot.coe_le_coe] at ends
    exact before.not_ge ends
  · intro above
    have le : Int64.ofInt (2 ^ b) ≤ q := by
      rw [Int64.le_iff_toInt_le, stored]
      exact above
    have starts := (Binary64.le_iff.mp (codec.dequantize_le_dequantize le)).2
    rwa [at_half, half] at starts

end Codec

namespace FixedPointModel

/-- What a row of words and the row of scores predicted from it have to do with the class `c`. -/
structure DecidesByWords (codec : Codec) (words : List Int64) (row : List Float) (c : Nat) :
    Prop where
  length : row.length = words.length
  /-- The scores have the order of the words and the same ties. -/
  order : ∀ u ∈ row.zip words, ∀ v ∈ row.zip words, u.1 ≤ v.1 ↔ u.2.toInt ≤ v.2.toInt
  /-- A single word decides for class 1 when it is at least half the scale. -/
  single : ∀ q, words = [q] → c = if 2 ^ (codec.fractionBits - 1) ≤ q.toInt then 1 else 0
  /-- Of several words the first greatest one decides. -/
  several : 1 < words.length → FirstGreatest (words.map Int64.toInt) c
  zero : (∀ q ∈ words, q = 0) → c = 0

/-- Words of small sum keep their order as scores, ties included. -/
theorem exists_forall₂_normalizeRow (codec : Codec) (nonneg : ∀ q ∈ words, 0 ≤ q.toInt)
    (small : (words.map Int64.toInt).sum ≤ 2 ^ 47) :
    ∃ f : ℤ → ℚ, List.Forall₂ (fun x q => value? x = some (f q.toInt))
        (normalizeRow (words.map codec.dequantize)) words ∧
      ∀ p ∈ words, ∀ q ∈ words, f p.toInt ≤ f q.toInt ↔ p.toInt ≤ q.toInt := by
  by_cases some_word : ∃ q ∈ words, 0 < q.toInt
  · obtain ⟨q, member, pos⟩ := some_word
    have le_sum : ∀ q ∈ words, q.toInt ≤ (words.map Int64.toInt).sum :=
      fun q member => toInt_le_sum nonneg _ (List.mem_map_of_mem member)
    have shares : Numbers (normalizeRow (words.map codec.dequantize)) _ :=
      numbers_normalizeRow nonneg (by omega) (pos.trans_le (le_sum q member))
    rw [Numbers, List.forall₂_map_right_iff, List.forall₂_map_right_iff] at shares
    refine ⟨fun k => rounded (k / (words.map Int64.toInt).sum), shares, ?_⟩
    intro p p_member q q_member
    exact Binary64.rounded_div_le_rounded_div_iff (nonneg p p_member) (le_sum p p_member)
      (nonneg q q_member) small
  · -- without a positive word all of them are equal
    push Not at some_word
    have zero : ∀ q ∈ words, q.toInt = 0 :=
      fun q member => le_antisymm (some_word q member) (nonneg q member)
    refine ⟨fun _ => 0, List.forall₂_iff_zip.mpr ⟨by simp, fun {x q} pair => ?_⟩, ?_⟩
    · exact normalizeRow_of_zero zero x (List.of_mem_zip pair).1
    · intro p p_member q q_member
      simp [zero p p_member, zero q q_member]

/-- The scan of scores in the order of their words finds the first greatest word. -/
theorem firstGreatest_of_forall₂ {f : ℤ → ℚ} (nonempty : words ≠ [])
    (numbers : List.Forall₂ (fun x q => value? x = some (f q.toInt)) row words)
    (order : ∀ p ∈ words, ∀ q ∈ words, f p.toInt ≤ f q.toInt ↔ p.toInt ≤ q.toInt) :
    FirstGreatest (words.map Int64.toInt) (argmax row) := by
  have levels : row.map level =
      (words.map Int64.toInt).map fun k => ((f k : ℚ) : WithBot ℚ) := by
    rw [List.map_map, ← List.forall₂_eq_eq_eq, List.forall₂_map_left_iff,
      List.forall₂_map_right_iff]
    exact numbers.imp fun x q at_x => Binary64.level_of_value? at_x
  cases numbers with
  | nil => exact absurd rfl nonempty
  | @cons score q rest words at_score _ =>
    have number : level score ≠ ⊥ := by simp [Binary64.level_of_value? at_score]
    have greatest : FirstGreatest ((score :: rest).map level) (argmax (score :: rest)) :=
      Classification.firstGreatest_argmax number
    rw [levels, Classification.firstGreatest_map_iff] at greatest
    · exact greatest
    · simpa only [List.forall_mem_map, WithBot.coe_le_coe] using order

theorem decidesByWords_several (several : 1 < words.length) (nonneg : ∀ q ∈ words, 0 ≤ q.toInt)
    (small : (words.map Int64.toInt).sum ≤ 2 ^ 47) :
    DecidesByWords codec words (normalizeRow (words.map codec.dequantize))
      (argmax (normalizeRow (words.map codec.dequantize))) := by
  obtain ⟨f, numbers, order⟩ := exists_forall₂_normalizeRow codec nonneg small
  generalize normalizeRow (words.map codec.dequantize) = row at numbers ⊢
  obtain ⟨length, values⟩ := List.forall₂_iff_zip.mp numbers
  have nonempty : words ≠ [] := List.ne_nil_of_length_pos (zero_lt_one.trans several)
  have first := firstGreatest_of_forall₂ nonempty numbers order
  refine ⟨length, ?_, ?_, fun _ => first, ?_⟩
  · rintro ⟨x, p⟩ x_pair ⟨y, q⟩ y_pair
    rw [Binary64.le_iff, Binary64.level_of_value? (values x_pair),
      Binary64.level_of_value? (values y_pair), and_iff_right WithBot.coe_ne_bot,
      WithBot.coe_le_coe]
    exact order p (List.of_mem_zip x_pair).2 q (List.of_mem_zip y_pair).2
  · rintro q rfl
    simp at several
  · intro zero
    refine first.eq_zero (x := 0) (List.forall_mem_map.mpr fun q member => ?_)
    rw [zero q member]
    rfl

theorem decidesByWords_single (some_bits : 1 ≤ codec.fractionBits)
    (few : codec.fractionBits ≤ 30) (q : Int64) :
    DecidesByWords codec [q] [codec.dequantize q] (if 0.5 ≤ codec.dequantize q then 1 else 0) where
  length := rfl
  order := by
    obtain ⟨v, at_v⟩ := codec.exists_value?_dequantize q
    simp [Binary64.le_iff, Binary64.level_of_value? at_v]
  single := by
    simp [codec.half_le_dequantize_iff some_bits few]
  several := by simp
  zero := by
    have half : (0 : ℤ) < 2 ^ (codec.fractionBits - 1) := pow_pos two_pos _
    simp only [List.mem_singleton, forall_eq]
    rintro rfl
    rw [if_neg]
    rw [codec.half_le_dequantize_iff some_bits few, not_le]
    exact half

variable {m : FixedPointModel} {features xs : List Float32}

/-- The scores of every sample decide as its words do. -/
theorem decidesByWords_sample (wellFormed : m.network.WellFormed) (head : 1 ≤ m.outputs)
    (some_bits : 1 ≤ m.codec.fractionBits) (few : m.codec.fractionBits ≤ 30)
    (width : xs.length = m.network.inputs) :
    DecidesByWords m.codec (m.headWords xs) (m.scores (m.headWords xs))
      (decision m.outputs (m.scores (m.headWords xs))) := by
  have length := length_headWords wellFormed width
  rw [scores, decision]
  by_cases several : 1 < m.outputs
  · obtain ⟨words_eq, logits_length⟩ := headWords_eq wellFormed several xs
    have nonempty : m.logits xs ≠ [] := List.ne_nil_of_length_pos (by omega)
    obtain ⟨ts, S, splits⟩ := exists_splits_dequantize m.codec nonempty
    have between := applyWords_between splits
    have small := sum_applyWords_le splits few
    rw [← words_eq] at between small
    rw [if_pos several, if_neg (by omega)]
    exact decidesByWords_several (length ▸ several) (fun q member => (between q member).1) small
  · obtain ⟨q, single⟩ := List.length_eq_one_iff.mp (length.trans (by omega))
    rw [if_neg several, if_pos (by omega), single]
    exact decidesByWords_single some_bits few q

/-- So do the scores of a batch, row by row. -/
theorem decidesByWords_batch (wellFormed : m.network.WellFormed) (head : 1 ≤ m.outputs)
    (some_bits : 1 ≤ m.codec.fractionBits) (few : m.codec.fractionBits ≤ 30)
    (wide : m.network.inputs ≠ 0) (whole : features.length % m.network.inputs = 0) :
    ∃ scores output, (m.predict features).outcome = .ok scores ∧
      (m.infer (m.quantized features)).outcome = .ok output ∧
      (classes m.outputs scores).length = output.rows ∧
      ∀ r < output.rows, ∃ words row c, output.row r = .ok words ∧
        (pieces m.outputs output.rows scores)[r]? = some row ∧
        (classes m.outputs scores)[r]? = some c ∧ DecidesByWords m.codec words row c := by
  have widths := length_of_mem_scores wellFormed whole
  have word_widths : ∀ words ∈ (samplesOf m.network.inputs features).map m.headWords,
      words.length = m.outputs :=
    List.forall_mem_map.mpr fun xs member =>
      length_headWords wellFormed (length_of_mem_samplesOf whole member)
  have cut := pieces_flatten widths
  rw [List.length_map, length_samplesOf] at cut
  refine ⟨_, _, predict_eq wellFormed wide whole, infer_quantized wellFormed whole, ?_, ?_⟩
  · simp [Classification.classes_flatten head widths]
  · intro r below
    obtain ⟨xs, at_r⟩ : ∃ xs, (samplesOf m.network.inputs features)[r]? = some xs :=
      ⟨_, List.getElem?_eq_getElem (by simpa using below)⟩
    have width := length_of_mem_samplesOf whole (List.mem_of_getElem? at_r)
    refine ⟨m.headWords xs, m.scores (m.headWords xs), _, ?_, ?_, ?_,
      decidesByWords_sample wellFormed head some_bits few width⟩
    · exact Tensor.row_flatten (by simp) word_widths (by simp [at_r])
    · rw [cut, List.getElem?_map, at_r, Option.map_some]
    · rw [Classification.classes_flatten head widths, List.getElem?_map, List.getElem?_map, at_r,
        Option.map_some, Option.map_some]

open Network

/-- The class predicted for every sample of a batch is the one that its row of words decides for:
    neither the division by the scale nor the one by the sum of a row changes a decision or a
    tie. -/
theorem classes_predict_of_accepted {n : Network Parameter}
    (accepted : (∃ inputs layers, ofLayers inputs layers = .ok n) ∨
      ∃ bytes, ofBytes bytes = .ok n) (head : 1 ≤ n.outputs) {codec : Codec}
    (some_bits : 1 ≤ codec.fractionBits) (few : codec.fractionBits ≤ 30)
    (features : List Float32) :
    ∃ m, (ofNetwork codec n).outcome = .ok m ∧
      BatchEnd n.inputs n.outputs features (m.predict features).outcome ∧
      ∀ scores, (m.predict features).outcome = .ok scores →
        ∃ output, (m.infer (m.quantized features)).outcome = .ok output ∧
          (classes n.outputs scores).length = output.rows ∧
          ∀ r < output.rows, ∃ words row c, output.row r = .ok words ∧
            (pieces n.outputs output.rows scores)[r]? = some row ∧
            (classes n.outputs scores)[r]? = some c ∧ DecidesByWords codec words row c := by
  have wellFormed := wellFormed_stored (wellFormed_of_accepted accepted) codec
  have ends := batchEnd_predict wellFormed features
  rw [outputs_stored] at ends
  refine ⟨_, outcome_ofNetwork codec n, ends, fun scores predicted => ?_⟩
  by_cases wide : n.inputs = 0
  · cases predicted.symm.trans (ends.fault wide)
  by_cases whole : features.length % n.inputs = 0
  · obtain ⟨_, output, ran, inferred, rows⟩ :=
      decidesByWords_batch (m := stored codec n) wellFormed (by rwa [outputs_stored]) some_bits few
        wide whole
    obtain rfl := Except.ok.inj (ran.symm.trans predicted)
    rw [outputs_stored] at rows
    exact ⟨output, inferred, rows⟩
  · cases predicted.symm.trans (ends.refusal wide whole)

theorem classes_predict_of_accepted_pair :
    ofLayers pair.inputs pair.layers = .ok pair ∧ 1 ≤ pair.outputs ∧
      1 ≤ Codec.default.fractionBits ∧ Codec.default.fractionBits ≤ 30 ∧
      ∃ m scores output words c, (ofNetwork .default pair).outcome = .ok m ∧
        (m.predict [1]).outcome = .ok scores ∧
        (m.infer (m.quantized [1])).outcome = .ok output ∧ output.row 0 = .ok words ∧
        classes 2 scores = [c] ∧ FirstGreatest (words.map Int64.toInt) c := by
  have accepted : ofLayers pair.inputs pair.layers = .ok pair := rfl
  have head : 1 ≤ pair.outputs := by decide
  have some_bits : 1 ≤ Codec.default.fractionBits := by decide
  have few : Codec.default.fractionBits ≤ 30 := by decide
  obtain ⟨m, made, ends, decides⟩ :=
    classes_predict_of_accepted (.inl ⟨_, _, accepted⟩) head some_bits few [1]
  obtain ⟨scores, predicted, length⟩ := ends.success (by decide) (by decide)
  obtain ⟨output, inferred, count, rows⟩ := decides scores predicted
  have units : pair.outputs = 2 := rfl
  have two : scores.length = 2 := length
  have one : (classes 2 scores).length = 1 := by
    rw [classes, if_neg (by decide), List.length_map, length_pieces, two]
  rw [units, one] at count
  rw [units, ← count] at rows
  obtain ⟨words, row, c, read, at_row, at_class, decided⟩ := rows 0 one_pos
  obtain ⟨c', single⟩ := List.length_eq_one_iff.mp one
  obtain rfl : c' = c := by simpa [single] using at_class
  have whole : scores = row := by simpa [pieces, ← two] using at_row
  refine ⟨accepted, head, some_bits, few, m, scores, output, words, c', made, predicted, inferred,
    read, single, decided.several ?_⟩
  rw [← decided.length, ← whole, two]
  exact one_lt_two

end FixedPointModel

end FixedPointNet
