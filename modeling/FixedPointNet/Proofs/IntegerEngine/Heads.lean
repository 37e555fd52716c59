import FixedPointNet.Proofs.Codec.Saturation
import FixedPointNet.Proofs.Exponential.Order
import FixedPointNet.Proofs.IntegerEngine.Distribution

/-!
# Heads keep range and order

A head turns its pre-activations into words between zero and one. With one unit it stores the
logistic function of each word, with several units the shares of the row. Both read words as
numbers, take exponentials from the tables, divide and floor, and every one of these steps keeps the
order of what it is given. So does the whole, and the unit with the largest pre-activation has the
largest output.
-/

namespace FixedPointNet

variable {codec : Codec} {row out : List Int64} {f : Int64 → Int64} {p q : Int64}

/-- The word that a head with one unit stores for a pre-activation. -/
def Codec.logistic (codec : Codec) (q : Int64) : Int64 :=
  codec.quantize (Exponential.sigmoid (codec.dequantize q))

/-- What a head stores is in range and ordered as its pre-activations are. A unit is a pair of a
    pre-activation and the word stored for it. -/
structure KeepsOrder (codec : Codec) (row out : List Int64) : Prop where
  /-- Every pre-activation has its word. -/
  length : out.length = row.length
  between : ∀ q ∈ out, 0 ≤ q.toInt ∧ q.toInt ≤ 2 ^ codec.fractionBits
  order : ∀ u ∈ row.zip out, ∀ v ∈ row.zip out, u.1 ≤ v.1 → u.2 ≤ v.2
  /-- No word is greater than that of the largest pre-activation. -/
  greatest : ∀ u ∈ row.zip out, (∀ p ∈ row, p ≤ u.1) → ∀ q ∈ out, q ≤ u.2

/-- A function on words that keeps range and order on a row does so as a head. -/
theorem keepsOrder_map
    (between : ∀ q ∈ row, 0 ≤ (f q).toInt ∧ (f q).toInt ≤ 2 ^ codec.fractionBits)
    (mono : ∀ p ∈ row, ∀ q ∈ row, p ≤ q → f p ≤ f q) : KeepsOrder codec row (row.map f) := by
  have unit : ∀ u ∈ row.zip (row.map f), u.1 ∈ row ∧ u.2 = f u.1 := by
    intro u member
    rw [← List.map_prod_left_eq_zip, List.mem_map] at member
    obtain ⟨q, q_member, rfl⟩ := member
    exact ⟨q_member, rfl⟩
  refine ⟨List.length_map f, List.forall_mem_map.mpr between, ?_, ?_⟩
  · intro u u_member v v_member le
    obtain ⟨u_row, u_word⟩ := unit u u_member
    obtain ⟨v_row, v_word⟩ := unit v v_member
    rw [u_word, v_word]
    exact mono _ u_row _ v_row le
  · intro u u_member largest
    obtain ⟨u_row, u_word⟩ := unit u u_member
    rw [List.forall_mem_map, u_word]
    exact fun p member => mono p member _ u_row (largest p member)

namespace Codec

theorem logistic_between (codec : Codec) (q : Int64) :
    0 ≤ (codec.logistic q).toInt ∧ (codec.logistic q).toInt ≤ 2 ^ codec.fractionBits := by
  obtain ⟨t, -, -, -, at_q, nonneg, le_one⟩ :=
    Exponential.exists_value?_sigmoid (codec.dequantize q)
  exact toInt_quantize_between at_q nonneg le_one

theorem logistic_le_logistic (codec : Codec) (le : p ≤ q) :
    codec.logistic p ≤ codec.logistic q := by
  have numbers : codec.dequantize p ≤ codec.dequantize q := codec.dequantize_le_dequantize le
  have shares := Exponential.sigmoid_le_sigmoid numbers
  exact Int64.le_iff_toInt_le.mpr (codec.toInt_quantize_le shares)

end Codec

theorem keepsOrder_sigmoid (codec : Codec) (row : List Int64) :
    KeepsOrder codec row (Activation.sigmoid.applyWords codec row) :=
  keepsOrder_map (f := codec.logistic) (fun q _ => codec.logistic_between q)
    fun _ _ _ _ le => codec.logistic_le_logistic le

theorem keepsOrder_softmax (codec : Codec) (nonempty : row ≠ []) :
    KeepsOrder codec row (Activation.softmax.applyWords codec row) := by
  obtain ⟨ts, S, splits⟩ := FixedPointModel.exists_splits_dequantize codec nonempty
  have numbers : ∀ x ∈ row.map codec.dequantize, ∃ v, Binary64.value? x = some v :=
    List.forall_mem_map.mpr fun q _ => codec.exists_value?_dequantize q
  have stored : Activation.softmax.applyWords codec row = row.map fun q =>
      codec.quantize (Exponential.share (row.map codec.dequantize) (codec.dequantize q)) := by
    rw [Activation.applyWords, splits.softmax_eq_map, List.map_map, List.map_map]
    rfl
  have between := FixedPointModel.applyWords_between splits
  rw [stored] at between ⊢
  refine keepsOrder_map (List.forall_mem_map.mp between) fun p p_member q q_member le => ?_
  have shares := splits.share_le_share numbers (List.mem_map_of_mem p_member)
    (codec.dequantize_le_dequantize le)
  exact Int64.le_iff_toInt_le.mpr (codec.toInt_quantize_le shares)

/-- The logistic head treats every word alike, in range and in order across all rows, and the head
    of several units keeps range and order within every row. -/
theorem applyWords_keepsOrder (codec : Codec) :
    (∀ row, Activation.sigmoid.applyWords codec row = row.map codec.logistic ∧
      KeepsOrder codec row (Activation.sigmoid.applyWords codec row)) ∧
    (∀ q, 0 ≤ (codec.logistic q).toInt ∧ (codec.logistic q).toInt ≤ 2 ^ codec.fractionBits) ∧
    (∀ p q, p ≤ q → codec.logistic p ≤ codec.logistic q) ∧
    ∀ row, row ≠ [] → KeepsOrder codec row (Activation.softmax.applyWords codec row) :=
  ⟨fun row => ⟨rfl, keepsOrder_sigmoid codec row⟩, codec.logistic_between,
    fun _ _ => codec.logistic_le_logistic, fun _ => keepsOrder_softmax codec⟩

/-- Zero, one and the least word: the largest is in the middle. -/
theorem applyWords_keepsOrder_three :
    let row : List Int64 := [0, 65536, Int64.minValue]
    row ≠ [] ∧ (0 : Int64) ≤ 65536 ∧ Codec.default.logistic 0 ≤ Codec.default.logistic 65536 ∧
      ∃ a b c : Int64, Activation.softmax.applyWords .default row = [a, b, c] ∧
        0 ≤ c.toInt ∧ c ≤ a ∧ a ≤ b ∧ b.toInt ≤ 2 ^ 16 := by
  intro row
  have nonempty : row ≠ [] := List.cons_ne_nil _ _
  have le : (0 : Int64) ≤ 65536 := by decide
  have least : Int64.minValue ≤ 0 := by decide
  obtain ⟨-, -, logistic, softmax⟩ := applyWords_keepsOrder .default
  obtain ⟨length, between, order, -⟩ := softmax row nonempty
  obtain ⟨a, b, c, words⟩ := List.length_eq_three.mp length
  rw [words] at between order
  refine ⟨nonempty, le, logistic 0 65536 le, a, b, c, words, ?_, ?_, ?_, ?_⟩
  · exact (between c (by simp)).1
  · exact order (Int64.minValue, c) (by simp [row]) (0, a) (by simp [row]) least
  · exact order (0, a) (by simp [row]) (65536, b) (by simp [row]) le
  · exact (between b (by simp)).2

end FixedPointNet
