import FixedPointNet.Proofs.IntegerEngine.Exact
import FixedPointNet.Proofs.Pruning.Masking

/-!
# Pruned networks on integer hardware

Quantizing a pruned network gives the pruned layers of the quantized network. The integer engine
passes over zeros, so it returns for a pruned network what the parent's quantized layers return when
every discarded neuron is overwritten with zero after the activation of its layer.
-/

namespace FixedPointNet

open Network

/-- The words that leave a layer for one row of words. -/
def Layer.wordsForward (codec : Codec) (l : Layer Int64) (words : List Int64) :
    Except Fault (List Int64) := do
  return (← l.forwardWords codec ⟨words, false⟩).words

/-- A tensor through all layers, where the words that leave each hidden layer are masked to the
    positions listed for it. -/
def FixedPointModel.inferMasked (m : FixedPointModel) (masks : List (List Nat)) (input : Tensor) :
    Except Fault Tensor := do
  let inputRows ← (List.range input.rows).mapM input.row
  let rows ← inputRows.mapM (maskedPass 0 (Layer.wordsForward m.codec) m.network.layers masks)
  return ⟨input.rows, m.outputs, rows.flatten⟩

variable {codec : Codec}

theorem Activation.applyWords_relu_entries (row : List Int64) (positions : List Nat) :
    Activation.relu.applyWords codec (entries row positions) =
      entries (Activation.relu.applyWords codec row) positions :=
  map_entries _ row positions

theorem Layer.preactivation_restriction {l : Layer Int64} (consistent : l.Consistent)
    {rows columns : List Nat} (below : Within l.outputs columns) {sums : List Int}
    (length : sums.length = l.outputs) :
    (l.restriction rows columns).preactivation codec (entries sums columns) =
      entries (l.preactivation codec sums) columns := by
  rw [preactivation, preactivation, map_entries]
  exact zipWith_entries _ (by rwa [List.length_map, length]) (by rwa [consistent.bias])

theorem Layer.wordSums_restriction {l : Layer Int64} (consistent : l.Consistent)
    {rows columns : List Nat} (within : Within l.inputs rows) (increasing : rows.Pairwise (· < ·))
    (below : Within l.outputs columns) {words : List Int64} (width : words.length = l.inputs)
    (masked : Masked 0 rows words) :
    ∃ sums, l.wordSums words = .ok sums ∧ sums.length = l.outputs ∧
      (l.restriction rows columns).wordSums (entries words rows) = .ok (entries sums columns) := by
  have length_initial : (List.replicate l.outputs (0 : Int)).length = l.outputs :=
    List.length_replicate
  obtain ⟨sums, whole, length, part⟩ := consistent.sums_restriction (· == 0)
    (fun sum x w => sum + x.toInt * w.toInt) rfl within increasing below length_initial width masked
  rw [entries_replicate _ below] at part
  exact ⟨sums, whole, length, part⟩

theorem selective_wordsForward (codec : Codec) : Selective 0 (Layer.wordsForward codec) where
  select := by
    intro l rows columns words consistent within increasing below activation width masked
    obtain ⟨sums, whole, length, part⟩ :=
      Layer.wordSums_restriction consistent within increasing below width masked
    have added : (l.restriction rows columns).preactivation codec (entries sums columns) =
        entries (l.preactivation codec sums) columns :=
      Layer.preactivation_restriction consistent below length
    have count : (l.preactivation codec sums).length = l.outputs := by
      simp [Layer.preactivation, length, consistent.bias]
    have activated : l.activation.applyWords codec (entries (l.preactivation codec sums) columns) =
        entries (l.activation.applyWords codec (l.preactivation codec sums)) columns := by
      rcases activation with rectifies | rfl
      · rw [rectifies, Activation.applyWords_relu_entries]
      · rw [entries_range_of_length count, entries_range_of_length (by simpa using count)]
    refine ⟨l.activation.applyWords codec (l.preactivation codec sums), ?_, by simpa using count,
      ?_⟩
    · rw [Layer.wordsForward, Layer.forwardWords, whole]
      rfl
    · rw [Layer.wordsForward, Layer.forwardWords, part]
      simp only [bind, Except.bind, Layer.rowOfSums, added]
      exact congrArg Except.ok activated

/-- The words of a row do not depend on whether a sum before it overflowed. -/
theorem Layer.forwardWords_of_wordsForward {l : Layer Int64} {words out : List Int64}
    (ok : l.wordsForward codec words = .ok out) (flag : Bool) :
    ∃ flag', l.forwardWords codec ⟨words, flag⟩ = .ok ⟨out, flag'⟩ := by
  rw [wordsForward, forwardWords] at ok
  cases sums : l.wordSums words with
  | error fault =>
    rw [sums] at ok
    simp [bind, Except.bind] at ok
  | ok values =>
    rw [sums] at ok
    simp only [bind, Except.bind, pure, Except.pure, Except.ok.injEq] at ok
    refine ⟨flag || values.any codec.overflows, ?_⟩
    rw [forwardWords, sums, ← ok]
    rfl

theorem foldlM_forwardWords_of_wordsForward {layers : List (Layer Int64)} {words out : List Int64}
    (ok : layers.foldlM (fun words l => l.wordsForward codec words) words = .ok out) (flag : Bool) :
    ∃ flag', layers.foldlM (fun row l => l.forwardWords codec row) ⟨words, flag⟩ =
      .ok ⟨out, flag'⟩ := by
  induction layers generalizing words flag with
  | nil =>
    cases ok
    exact ⟨flag, rfl⟩
  | cons l layers ih =>
    rw [List.foldlM_cons] at ok
    cases first : l.wordsForward codec words with
    | error fault =>
      rw [first] at ok
      simp [bind, Except.bind] at ok
    | ok next =>
      rw [first] at ok
      obtain ⟨flag₁, step⟩ := Layer.forwardWords_of_wordsForward first flag
      have rest_ok : layers.foldlM (fun words l => l.wordsForward codec words) next = .ok out := ok
      obtain ⟨flag₂, rest⟩ := ih rest_ok flag₁
      refine ⟨flag₂, ?_⟩
      rw [List.foldlM_cons, step]
      exact rest

namespace FixedPointModel

variable {n : Network Parameter} {counts : List Nat}

/-- One row through the model of a pruned network is one masked row through the parent's. -/
theorem inferRow_pruned (wellFormed : n.WellFormed) (removable : n.Removable counts)
    {words : List Int64} (width : words.length = n.inputs) :
    ∃ row, inferRow ⟨codec, (n.pruned counts).map fun p => codec.quantize p.real⟩ words = .ok row ∧
      maskedPass 0 (Layer.wordsForward codec) (n.map fun p => codec.quantize p.real).layers
        (n.kept counts).tail words = .ok row.words := by
  have selective := (selective_wordsForward codec).comap fun p : Parameter => codec.quantize p.real
  obtain ⟨out, parent, pruned⟩ := wellFormed.foldlM_pruned selective removable width
  rw [← maskedPass_map] at parent
  have quantized : ((n.pruned counts).map fun p => codec.quantize p.real).layers.foldlM
      (fun words l => l.wordsForward codec words) words = .ok out := by
    rw [Network.map, List.foldlM_map]
    exact pruned
  obtain ⟨flag, run⟩ := foldlM_forwardWords_of_wordsForward quantized false
  exact ⟨⟨out, flag⟩, run, parent⟩

/-- Pruning an accepted network is masking it. For every tensor of its width, the model of the
    pruned network returns what the model of the network returns when every neuron that was
    discarded is overwritten with zero. -/
theorem infer_pruned {given : Nat} {literals : List (Layer Parameter)}
    (accepted : ofLayers given literals = .ok n) (removable : n.Removable counts) (codec : Codec)
    {input : Tensor} (columns : input.columns = n.inputs) (whole : input.Whole) :
    ∃ p kept narrow wide output, n.prune counts = .ok p ∧ n.ChainedPruning counts kept p ∧
      (ofNetwork codec p).outcome = .ok narrow ∧ (ofNetwork codec n).outcome = .ok wide ∧
      (narrow.infer input).outcome = .ok output ∧
      wide.inferMasked kept.tail input = .ok output := by
  have wellFormed : n.WellFormed := wellFormed_of_ofLayers_eq_ok accepted
  have chained := wellFormed.chainedPruning removable
  let narrow : FixedPointModel := ⟨codec, (n.pruned counts).map fun p => codec.quantize p.real⟩
  let wide : FixedPointModel := ⟨codec, n.map fun p => codec.quantize p.real⟩
  have outputs : narrow.outputs = wide.outputs := by
    rw [FixedPointModel.outputs, FixedPointModel.outputs, outputs_map, outputs_map, chained.outputs]
  have each : ∀ words ∈ input.rowList, ∃ row, narrow.inferRow words = .ok row ∧
      maskedPass 0 (Layer.wordsForward codec) wide.network.layers (n.kept counts).tail words =
        .ok row.words :=
    fun _ member => inferRow_pruned wellFormed removable ((whole.length_row member).trans columns)
  obtain ⟨rows, pruned, parent⟩ := exists_mapM_eq_ok each
  refine ⟨n.pruned counts, n.kept counts, narrow, wide,
    ⟨input.rows, wide.outputs, (rows.map WordRow.words).flatten⟩, wellFormed.prune_eq removable,
    chained, rfl, rfl, ?_, ?_⟩
  · rw [infer, inferBy_of_rows (m := narrow) columns whole.mapM_row pruned, outputs]
  · rw [inferMasked, whole.mapM_row]
    simp only [bind, Except.bind]
    rw [parent]
    rfl

theorem infer_pruned_small :
    ofLayers small.inputs small.layers = .ok small ∧ small.Removable [1] ∧
      Tensor.Whole ⟨2, 2, [65536, -65536, 0, 4611686018427387904]⟩ ∧
      ∃ p narrow wide output, small.prune [1] = .ok p ∧
        (ofNetwork Codec.default p).outcome = .ok narrow ∧
        (ofNetwork Codec.default small).outcome = .ok wide ∧
        (narrow.infer ⟨2, 2, [65536, -65536, 0, 4611686018427387904]⟩).outcome = .ok output ∧
        ∃ kept, wide.inferMasked kept ⟨2, 2, [65536, -65536, 0, 4611686018427387904]⟩ =
          .ok output := by
  have accepted : ofLayers small.inputs small.layers = .ok small := rfl
  have removable : small.Removable [1] := ⟨by decide, .cons (by decide) .nil⟩
  have whole : Tensor.Whole ⟨2, 2, [65536, -65536, 0, 4611686018427387904]⟩ := by
    unfold Tensor.Whole
    decide
  obtain ⟨p, kept, narrow, wide, output, ok, -, narrow_made, wide_made, pruned, masked⟩ :=
    infer_pruned accepted removable Codec.default rfl whole
  exact ⟨accepted, removable, whole, p, narrow, wide, output, ok, narrow_made, wide_made, pruned,
    kept.tail, masked⟩

end FixedPointModel

end FixedPointNet
