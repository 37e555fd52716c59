import FixedPointNet.Proofs.FloatEngine.Batch
import FixedPointNet.Proofs.IntegerEngine.Exact

/-!
# Predictions of the integer engine

A prediction quantizes a batch of features to a tensor, runs the tensor, and turns every row of
words that leaves the head into numbers. A row of predictions depends on its own sample alone.
Features that are no complete samples are refused, and without inputs there is nothing to count
samples by.
-/

namespace FixedPointNet.FixedPointModel

open Network

/-- The model with the stored words of a network's parameters. -/
def stored (codec : Codec) (n : Network Parameter) : FixedPointModel :=
  ⟨codec, n.map fun p => codec.quantize p.real⟩

@[simp] theorem outcome_ofNetwork (codec : Codec) (n : Network Parameter) :
    (ofNetwork codec n).outcome = .ok (stored codec n) := rfl

@[simp] theorem inputs_stored (codec : Codec) (n : Network Parameter) :
    (stored codec n).network.inputs = n.inputs := rfl

@[simp] theorem outputs_stored (codec : Codec) (n : Network Parameter) :
    (stored codec n).outputs = n.outputs :=
  outputs_map _ n

theorem wellFormed_stored {n : Network Parameter} (wellFormed : n.WellFormed) (codec : Codec) :
    (stored codec n).network.WellFormed :=
  wellFormed.map _

/-- The tensor of a batch of features. -/
def quantized (m : FixedPointModel) (features : List Float32) : Tensor :=
  ⟨features.length / m.network.inputs, m.network.inputs,
    (features.map Binary32.widen).map m.codec.quantize⟩

/-- The numbers that a prediction makes of a row of words from the head. -/
def scores (m : FixedPointModel) (words : List Int64) : List Float :=
  if 1 < m.outputs then normalizeRow (words.map m.codec.dequantize)
  else words.map m.codec.dequantize

/-- The words that leave the head for one sample. -/
def headWords (m : FixedPointModel) (xs : List Float32) : List Int64 :=
  exactRow m.codec m.network.layers ((xs.map Binary32.widen).map m.codec.quantize)

variable {m : FixedPointModel} {features xs : List Float32}

@[simp] theorem length_normalizeRow (row : List Float) :
    (normalizeRow row).length = row.length := by
  unfold normalizeRow
  simp only
  split <;> simp

@[simp] theorem length_scores (m : FixedPointModel) (words : List Int64) :
    (m.scores words).length = words.length := by
  unfold scores
  split <;> simp

theorem length_headWords (wellFormed : m.network.WellFormed)
    (width : xs.length = m.network.inputs) : (m.headWords xs).length = m.outputs := by
  rw [headWords]
  exact length_exactRow_eq_outputs wellFormed (by simpa using width)

/-- Every sample gives as many numbers as the head has units. -/
theorem length_of_mem_scores (wellFormed : m.network.WellFormed)
    (whole : features.length % m.network.inputs = 0) :
    ∀ row ∈ (samplesOf m.network.inputs features).map fun xs => m.scores (m.headWords xs),
      row.length = m.outputs := by
  intro row member
  obtain ⟨xs, sample, rfl⟩ := List.mem_map.mp member
  rw [length_scores]
  exact length_headWords wellFormed (length_of_mem_samplesOf whole sample)

theorem predict_of_inputs_eq_zero (none : m.network.inputs = 0) (features : List Float32) :
    m.predict features = Logged.fail (.fault .zeroWidth) := by
  unfold predict
  simp only
  rw [if_pos none]
  rfl

theorem predict_of_ragged (wide : m.network.inputs ≠ 0)
    (ragged : features.length % m.network.inputs ≠ 0) :
    m.predict features = Logged.fail (.error (.shapeMismatch
      [features.length / m.network.inputs * m.network.inputs] [features.length])) := by
  unfold predict
  simp only
  rw [if_neg wide, if_pos ragged]
  rfl

theorem whole_quantized (whole : features.length % m.network.inputs = 0) :
    (m.quantized features).Whole := by
  rw [Tensor.Whole, quantized, List.length_map, List.length_map]
  exact (length_eq_of_mod_eq_zero whole).ge

/-- The rows of the tensor are the quantized samples. -/
theorem rowList_quantized (m : FixedPointModel) (features : List Float32) :
    (m.quantized features).rowList =
      (samplesOf m.network.inputs features).map fun xs =>
        (xs.map Binary32.widen).map m.codec.quantize := by
  rw [Tensor.rowList, quantized, pieces_map, pieces_map, List.map_map]
  rfl

/-- The head gives one row of words for each sample. -/
theorem infer_quantized (wellFormed : m.network.WellFormed)
    (whole : features.length % m.network.inputs = 0) :
    (m.infer (m.quantized features)).outcome = .ok ⟨features.length / m.network.inputs, m.outputs,
      ((samplesOf m.network.inputs features).map m.headWords).flatten⟩ := by
  classical
  have tensor := m.whole_quantized whole
  have run : (m.quantized features).rowList.mapM m.inferRow =
      .ok ((m.quantized features).rowList.map fun words =>
        ⟨exactRow m.codec m.network.layers words,
          decide (RowOverflows m.codec m.network.layers words)⟩) :=
    mapM_eq_ok fun words member => inferRow_eq wellFormed (tensor.length_row member)
  rw [infer, inferBy_of_rows rfl tensor.mapM_row run, List.map_map, rowList_quantized, List.map_map]
  rfl

/-- A batch gives the predictions that its samples give alone, one row after the other. -/
theorem predict_eq (wellFormed : m.network.WellFormed) (wide : m.network.inputs ≠ 0)
    (whole : features.length % m.network.inputs = 0) :
    (m.predict features).outcome =
      .ok ((samplesOf m.network.inputs features).map fun xs =>
        m.scores (m.headWords xs)).flatten := by
  have ran := m.infer_quantized wellFormed whole
  have widths : ∀ words ∈ (samplesOf m.network.inputs features).map m.headWords,
      words.length = m.outputs := by
    intro words member
    obtain ⟨xs, sample, rfl⟩ := List.mem_map.mp member
    exact length_headWords wellFormed (length_of_mem_samplesOf whole sample)
  have cut := pieces_flatten widths
  rw [List.length_map, length_samplesOf] at cut
  rw [quantized] at ran
  unfold predict
  simp only
  rw [if_neg wide, if_neg (not_not.mpr whole), Logged.bind_of_ok _ rfl]
  simp only
  rw [Logged.bind_of_ok _ ran]
  simp only [scores]
  split
  · rw [pieces_map, cut, List.map_map, List.map_map]
    rfl
  · rw [List.map_flatten, List.map_map]
    rfl

/-- A sample on its own is a batch of one. -/
theorem predict_sample (wellFormed : m.network.WellFormed) (wide : m.network.inputs ≠ 0)
    (width : xs.length = m.network.inputs) :
    (m.predict xs).outcome = .ok (m.scores (m.headWords xs)) := by
  have whole : xs.length % m.network.inputs = 0 := by rw [width, Nat.mod_self]
  have single : samplesOf m.network.inputs xs = [xs] := by
    rw [← width]
    exact samplesOf_self (width.trans_ne wide)
  rw [predict_eq wellFormed wide whole, single, List.map_singleton, List.flatten_singleton]

end FixedPointNet.FixedPointModel
