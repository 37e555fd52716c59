import FixedPointNet.Proofs.IntegerEngine.Accuracy
import Mathlib.Algebra.Order.BigOperators.Group.Finset

/-!
# Accumulators of 128 bits

The engine sums over unbounded integers, and a machine modulo the size of its accumulators. While no
partial sum leaves the range of an accumulator, both give the same sums, the same rows and the same
report. Where the weights are light enough for the number of inputs, no sample reaches the end of
that range.
-/

namespace FixedPointNet

namespace Layer

/-- The sum of the products of the first `k` inputs with their weights to output `o`. -/
def partialSum (l : Layer Int64) (words : List Int64) (o k : Nat) : Int :=
  ∑ i ∈ Finset.range k, (words.getD i 0).toInt * ((l.weight? i o).getD 0).toInt

/-- An accumulator holds the signed integers of 128 bits. -/
def Holds (sum : Int) : Prop :=
  -2 ^ 127 ≤ sum ∧ sum < 2 ^ 127

/-- An accumulator holds all partial sums of a row of words. -/
def FitsAccumulator (l : Layer Int64) (words : List Int64) : Prop :=
  ∀ o < l.outputs, ∀ k ≤ l.inputs, Holds (l.partialSum words o k)

variable {l : Layer Int64} {words : List Int64}

theorem Holds.bmod_eq {sum : Int} (holds : Holds sum) : sum.bmod accumulatorSize = sum := by
  obtain ⟨low, high⟩ := holds
  exact Int.bmod_eq_of_le low high

/-- Adding modulo the size of an accumulator is adding, while the accumulator holds every sum on the
    way. -/
theorem foldl_accumulate {add : Int → Int64 → Int64 → Int} {start : Int}
    {inputs : List (Int64 × Int64)}
    (holds : ∀ k ≤ inputs.length,
      Holds ((inputs.take k).foldl (addUnlessZero (· == 0) add) start)) :
    inputs.foldl (addUnlessZero (· == 0) fun sum x w => (add sum x w).bmod accumulatorSize) start =
      inputs.foldl (addUnlessZero (· == 0) add) start := by
  -- on the inputs from the end: the accumulator held what the last product is added to
  induction inputs using List.reverseRecOn with
  | nil => rfl
  | append_singleton inputs last ih =>
    have before := ih fun k le => by
      have shorter : k ≤ (inputs ++ [last]).length :=
        le.trans (List.length_append ▸ Nat.le_add_right _ _)
      simpa [List.take_append_of_le_length le] using holds k shorter
    have whole := (holds _ le_rfl).bmod_eq
    rw [List.take_length, List.foldl_append, List.foldl_cons, List.foldl_nil] at whole
    rw [List.foldl_append, List.foldl_append, before, List.foldl_cons, List.foldl_nil,
      List.foldl_cons, List.foldl_nil]
    by_cases zero : last.1 == 0
    · simp [addUnlessZero, zero]
    · rw [addUnlessZero, if_neg zero] at whole ⊢
      rw [addUnlessZero, if_neg zero, whole]

/-- While they hold all partial sums, accumulators end with the exact sums. -/
theorem Consistent.accumulatedSums_eq (consistent : l.Consistent)
    (width : words.length = l.inputs) (fits : l.FitsAccumulator words) :
    l.accumulatedSums words = l.wordSums words := by
  rw [accumulatedSums, wordSums, consistent.sums_eq _ _ List.length_replicate,
    consistent.sums_eq _ _ List.length_replicate]
  congr 1
  rw [List.mapIdx_eq_mapIdx_iff]
  intro o inside
  have below : o < l.outputs := by simpa using inside
  rw [List.getElem_replicate]
  apply foldl_accumulate
  intro k le
  have reached : k ≤ l.inputs := by
    rw [List.length_zip, width, consistent.length_column below, Nat.min_self] at le
    exact le
  have partial_sum := columnSum_words 0 (words.take k) ((l.column o).take k)
  rw [Int.zero_add, consistent.sum_take_zipWith_column width below reached, ← partialSum]
    at partial_sum
  rw [List.zip, List.take_zipWith, ← List.zip, ← columnSum, partial_sum]
  exact fits o below k reached

theorem Consistent.forwardAccumulated_eq (consistent : l.Consistent) (codec : Codec)
    {row : WordRow} (width : row.words.length = l.inputs) (fits : l.FitsAccumulator row.words) :
    l.forwardAccumulated codec row = l.forwardWords codec row := by
  rw [forwardAccumulated, forwardWords, consistent.accumulatedSums_eq width fits]

/-- A partial sum is bounded by its number of products, the greatest word and a bound of the
    weights. -/
theorem abs_partialSum_le {bound : Nat} (light : ∀ w ∈ l.weights, w.toInt.natAbs ≤ bound)
    (words : List Int64) (o k : Nat) : |l.partialSum words o k| ≤ k * (2 ^ 63 * bound) := by
  have word (x : Int64) : |x.toInt| ≤ 2 ^ 63 := abs_le.mpr ⟨x.le_toInt, x.toInt_lt.le⟩
  have weight (i : Nat) : |((l.weight? i o).getD 0).toInt| ≤ bound := by
    cases at_i : l.weight? i o with
    | none => simp
    | some w =>
      rw [Option.getD_some, Int.abs_eq_natAbs]
      exact_mod_cast light w (List.mem_of_getElem? at_i)
  calc |l.partialSum words o k|
      ≤ ∑ i ∈ Finset.range k, |(words.getD i 0).toInt * ((l.weight? i o).getD 0).toInt| :=
        Finset.abs_sum_le_sum_abs _ _
    _ ≤ ∑ _i ∈ Finset.range k, (2 ^ 63 * bound : Int) := by
        apply Finset.sum_le_sum
        intro i _
        rw [abs_mul]
        exact mul_le_mul (word _) (weight i) (abs_nonneg _) (by positivity)
    _ = k * (2 ^ 63 * bound) := by rw [Finset.sum_const, Finset.card_range, nsmul_eq_mul]

/-- Inputs and weights that are few and light enough fit, whatever the words of the row are. -/
theorem fitsAccumulator_of_light {bound : Nat}
    (light : ∀ w ∈ l.weights, w.toInt.natAbs ≤ bound) (few : l.inputs * bound < 2 ^ 64)
    (words : List Int64) : l.FitsAccumulator words := by
  intro o _ k le
  have bounded : (k * (2 ^ 63 * bound) : Int) < 2 ^ 127 := by
    have fewer : k * bound < 2 ^ 64 := (Nat.mul_le_mul_right bound le).trans_lt few
    have scaled : 2 ^ 63 * (k * bound) < 2 ^ 63 * 2 ^ 64 :=
      Nat.mul_lt_mul_of_pos_left fewer (by decide)
    rw [Nat.mul_left_comm] at scaled
    exact_mod_cast scaled
  obtain ⟨low, high⟩ := abs_le.mp (abs_partialSum_le light words o k)
  exact ⟨by linarith, by linarith⟩

end Layer

namespace FixedPointModel

open Network

/-- The row behind the first `k` layers, summed in accumulators. -/
def accumulatedBehind (codec : Codec) (layers : List (Layer Int64)) (k : Nat) (row : WordRow) :
    Except Fault WordRow :=
  (layers.take k).foldlM (fun row q => q.forwardAccumulated codec row) row

/-- On the way of a row through layers, accumulators hold all partial sums. -/
def RowFits (codec : Codec) (layers : List (Layer Int64)) (row : WordRow) : Prop :=
  ∀ k q next, layers[k]? = some q → rowBehind codec layers k row = .ok next →
    q.FitsAccumulator next.words

/-- On the way of every row of a tensor, accumulators hold all partial sums. -/
def FitsAccumulators (m : FixedPointModel) (input : Tensor) : Prop :=
  ∀ r < input.rows, ∀ words, input.row r = .ok words →
    RowFits m.codec m.network.layers ⟨words, false⟩

variable {codec : Codec} {layers : List (Layer Int64)} {row : WordRow} {m : FixedPointModel}
  {input : Tensor}

theorem RowFits.tail {q : Layer Int64} {next : WordRow} (fits : RowFits codec (q :: layers) row)
    (step : q.forwardWords codec row = .ok next) : RowFits codec layers next := by
  intro k p after at_k behind
  rw [← rowBehind_cons step] at behind
  exact fits (k + 1) p after at_k behind

/-- A row that fits is behind every layer the one of the exact sums. -/
theorem accumulatedBehind_eq (chained : Chained row.words.length layers)
    (fits : RowFits codec layers row) (k : Nat) :
    accumulatedBehind codec layers k row = rowBehind codec layers k row := by
  induction layers generalizing row k with
  | nil => rw [accumulatedBehind, rowBehind, List.take_nil, List.foldlM_nil, List.foldlM_nil]
  | cons q layers ih =>
    cases k with
    | zero => rfl
    | succ k =>
      obtain _ | ⟨width, consistent, chained⟩ := chained
      have same : q.forwardAccumulated codec row = q.forwardWords codec row :=
        consistent.forwardAccumulated_eq codec width.symm (fits 0 q row rfl rfl)
      obtain ⟨flag, step, -⟩ := consistent.forwardWords_eq codec width.symm row.overflowed
      have chained' : Chained (q.exactForward codec row.words).length layers := by simpa
      rw [rowBehind_cons step, ← ih chained' (fits.tail step) k, accumulatedBehind,
        List.take_succ_cons, List.foldlM_cons, same, step]
      rfl

theorem accumulateRow_eq {words : List Int64} (chained : Chained words.length m.network.layers)
    (fits : RowFits m.codec m.network.layers ⟨words, false⟩) :
    m.accumulateRow words = m.inferRow words := by
  have same := accumulatedBehind_eq chained fits m.network.layers.length
  rwa [accumulatedBehind, rowBehind, List.take_length] at same

/-- On a tensor that fits, accumulators compute and report what the exact sums do. -/
theorem inferAccumulated_eq (wellFormed : m.network.WellFormed) (whole : input.Whole)
    (columns : input.columns = m.network.inputs) (fits : m.FitsAccumulators input) :
    m.inferAccumulated input = m.infer input := by
  classical
  have width : ∀ words ∈ input.rowList, words.length = m.network.inputs :=
    fun words member => (whole.length_row member).trans columns
  have exact (words : List Int64) (member : words ∈ input.rowList) :=
    inferRow_eq wellFormed (width words member)
  have accumulated (words : List Int64) (member : words ∈ input.rowList) :
      m.accumulateRow words = m.inferRow words := by
    obtain ⟨r, below, read⟩ := whole.mem_rowList_iff.mp member
    exact accumulateRow_eq (width words member ▸ wellFormed.chained) (fits r below words read)
  rw [inferAccumulated, infer, inferBy_of_rows columns whole.mapM_row (mapM_eq_ok exact),
    inferBy_of_rows columns whole.mapM_row
      (mapM_eq_ok fun words member => (accumulated words member).trans (exact words member))]

/-- A tensor fits where the inputs and weights of every layer are few and light enough. -/
theorem fitsAccumulators_of_light {bound : Nat}
    (light : ∀ q ∈ m.network.layers, ∀ w ∈ q.weights, w.toInt.natAbs ≤ bound)
    (few : ∀ q ∈ m.network.layers, q.inputs * bound < 2 ^ 64) (input : Tensor) :
    m.FitsAccumulators input := by
  intro _ _ _ _ k q next at_k _
  have member : q ∈ m.network.layers := List.mem_of_getElem? at_k
  exact Layer.fitsAccumulator_of_light (light q member) (few q member) next.words

end FixedPointModel

end FixedPointNet
