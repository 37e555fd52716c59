import FixedPointNet.IntegerEngine
import FixedPointNet.Proofs.Codec
import FixedPointNet.Proofs.Layer.Columns
import FixedPointNet.Proofs.Network.Accepted
import FixedPointNet.Proofs.Tensor
import Mathlib.Algebra.BigOperators.Group.Finset.Basic

/-!
# The integer engine computes exact sums

The reference adds all products of a neuron over unbounded integers, divides the sum by `2 ^ B`
towards the floor, adds the bias, and takes the representative of the result among the words. The
engine passes over inputs that are zero, truncates and adds words; row by row it returns what the
reference gives. It reports that values wrapped exactly when some quotient of the reference is
outside the range of a word.
-/

namespace FixedPointNet

namespace Layer

/-- The sum of all products that enter output `o`. -/
def exactSum (l : Layer Int64) (words : List Int64) (o : Nat) : Int :=
  ∑ i ∈ Finset.range l.inputs, (words.getD i 0).toInt * ((l.weight? i o).getD 0).toInt

/-- The sum divided by `2 ^ B`, towards the floor. -/
def exactQuotient (codec : Codec) (l : Layer Int64) (words : List Int64) (o : Nat) : Int :=
  ⌊(l.exactSum words o : ℚ) / 2 ^ codec.fractionBits⌋

/-- The quotient plus the bias, as the representative among the words of its class modulo their
    number. -/
def exactPreactivation (codec : Codec) (l : Layer Int64) (words : List Int64) (o : Nat) : Int :=
  (l.exactQuotient codec words o + (l.bias.getD o 0).toInt).bmod (2 ^ 64)

/-- One row of words through the layer. -/
def exactForward (codec : Codec) (l : Layer Int64) (words : List Int64) : List Int64 :=
  l.activation.applyWords codec <|
    (List.range l.outputs).map fun o => Int64.ofInt (l.exactPreactivation codec words o)

/-- Some quotient of a row of words is outside the range of a word. -/
def Overflows (codec : Codec) (l : Layer Int64) (words : List Int64) : Prop :=
  ∃ o < l.outputs, l.exactQuotient codec words o < Codec.minWord ∨
    Codec.maxWord < l.exactQuotient codec words o

variable {l : Layer Int64} {words : List Int64}

/-- Passing over zeros does not change a sum of products. -/
theorem columnSum_words (start : Int) (xs weights : List Int64) :
    columnSum (· == 0) (fun (sum : Int) (x : Int64) (w : Int64) => sum + x.toInt * w.toInt) start xs
      weights = start + (List.zipWith (fun x w => x.toInt * w.toInt) xs weights).sum := by
  induction xs generalizing start weights with
  | nil => simp [columnSum]
  | cons x xs ih =>
    cases weights with
    | nil => simp [columnSum]
    | cons w weights =>
      have rest := ih (addUnlessZero (· == 0)
        (fun (sum : Int) (x : Int64) (w : Int64) => sum + x.toInt * w.toInt) start (x, w)) weights
      rw [columnSum, List.zip_cons_cons, List.foldl_cons, ← columnSum, rest, List.zipWith_cons_cons,
        List.sum_cons, addUnlessZero]
      by_cases zero : x = 0
      · simp [zero]
      · simp [zero, Int.add_assoc]

theorem Consistent.column_eq_map (consistent : l.Consistent) {o : Nat} (below : o < l.outputs) :
    l.column o = (List.range l.inputs).map fun i => (l.weight? i o).getD 0 := by
  rw [consistent.column_eq below, ← List.filterMap_eq_map]
  apply List.filterMap_congr
  intro i member
  obtain ⟨w, at_w⟩ := consistent.exists_weight? (List.mem_range.mp member) below
  simp [at_w]

/-- The products along the first `k` inputs of a column, as a sum over those inputs. -/
theorem Consistent.sum_take_zipWith_column (consistent : l.Consistent)
    (width : words.length = l.inputs) {o k : Nat} (below : o < l.outputs) (le : k ≤ l.inputs) :
    (List.zipWith (fun x w => x.toInt * w.toInt) (words.take k) ((l.column o).take k)).sum =
      ∑ i ∈ Finset.range k, (words.getD i 0).toInt * ((l.weight? i o).getD 0).toInt := by
  have listed : words = (List.range l.inputs).map fun i => words.getD i 0 := by
    rw [← width, map_getD_range]
  rw [consistent.column_eq_map below]
  conv_lhs => rw [listed]
  rw [← List.map_take, ← List.map_take, List.take_range, Nat.min_eq_left le, List.zipWith_map,
    List.zipWith_self]
  rfl

theorem Consistent.sum_zipWith_column (consistent : l.Consistent) (width : words.length = l.inputs)
    {o : Nat} (below : o < l.outputs) :
    (List.zipWith (fun x w => x.toInt * w.toInt) words (l.column o)).sum = l.exactSum words o := by
  have whole := consistent.sum_take_zipWith_column width below le_rfl
  rwa [List.take_of_length_le width.le,
    List.take_of_length_le (consistent.length_column below).le] at whole

/-- The loop over the inputs computes the exact sums. -/
theorem Consistent.wordSums_eq (consistent : l.Consistent) (width : words.length = l.inputs) :
    l.wordSums words = .ok ((List.range l.outputs).map (l.exactSum words)) := by
  rw [wordSums, consistent.sums_eq _ _ List.length_replicate]
  congr 1
  rw [List.mapIdx_eq_iff]
  intro o
  by_cases below : o < l.outputs
  · have sum := consistent.sum_zipWith_column width below
    simp [below, columnSum_words, sum]
  · have past : l.outputs ≤ o := Nat.le_of_not_lt below
    simp [past]

theorem Consistent.preactivation_eq (consistent : l.Consistent) (codec : Codec)
    (words : List Int64) :
    l.preactivation codec ((List.range l.outputs).map (l.exactSum words)) =
      (List.range l.outputs).map fun o => Int64.ofInt (l.exactPreactivation codec words o) := by
  have listed : l.bias = (List.range l.outputs).map fun o => l.bias.getD o 0 := by
    rw [← consistent.bias, map_getD_range]
  rw [preactivation]
  conv_lhs => rw [listed]
  rw [List.map_map, List.zipWith_map, List.zipWith_self]
  apply List.map_congr_left
  intro o _
  exact codec.rescale_add_eq (l.exactSum words o) (l.bias.getD o 0)

theorem any_overflows_iff (codec : Codec) (l : Layer Int64) (words : List Int64) :
    ((List.range l.outputs).map (l.exactSum words)).any codec.overflows = true ↔
      l.Overflows codec words := by
  rw [List.any_map, List.any_eq_true]
  constructor
  · rintro ⟨o, member, overflows⟩
    exact ⟨o, List.mem_range.mp member, (codec.overflows_iff _).mp overflows⟩
  · rintro ⟨o, below, outside⟩
    exact ⟨o, List.mem_range.mpr below, (codec.overflows_iff _).mpr outside⟩

@[simp] theorem length_softmax (row : List Float) :
    (Exponential.softmax row).length = row.length := by
  unfold Exponential.softmax
  simp only
  split <;> simp

@[simp] theorem length_applyWords (codec : Codec) (activation : Activation) (row : List Int64) :
    (activation.applyWords codec row).length = row.length := by
  cases activation <;> simp [Activation.applyWords]

@[simp] theorem length_exactForward (codec : Codec) (l : Layer Int64) (words : List Int64) :
    (l.exactForward codec words).length = l.outputs := by
  simp [exactForward]

/-- A row through a layer is what the reference gives, and the flag is set when it was or when the
    layer overflows. -/
theorem Consistent.forwardWords_eq (consistent : l.Consistent) (codec : Codec)
    (width : words.length = l.inputs) (flag : Bool) :
    ∃ flag', l.forwardWords codec ⟨words, flag⟩ = .ok ⟨l.exactForward codec words, flag'⟩ ∧
      (flag' = true ↔ flag = true ∨ l.Overflows codec words) := by
  refine ⟨flag || ((List.range l.outputs).map (l.exactSum words)).any codec.overflows, ?_, ?_⟩
  · rw [forwardWords, consistent.wordSums_eq width]
    simp only [bind, Except.bind, rowOfSums, consistent.preactivation_eq]
    rfl
  · rw [Bool.or_eq_true, any_overflows_iff]

end Layer

namespace FixedPointModel

open Network

/-- One row of words through layers, by the reference. -/
def exactRow (codec : Codec) (layers : List (Layer Int64)) (words : List Int64) : List Int64 :=
  layers.foldl (fun words l => l.exactForward codec words) words

/-- On the way of a row through layers, some quotient is outside the range of a word. -/
def RowOverflows (codec : Codec) (layers : List (Layer Int64)) (words : List Int64) : Prop :=
  ∃ (k : Nat) (l : Layer Int64), layers[k]? = some l ∧
    l.Overflows codec (exactRow codec (layers.take k) words)

variable (codec : Codec) {layers : List (Layer Int64)} {words : List Int64}

theorem rowOverflows_cons (l : Layer Int64) :
    RowOverflows codec (l :: layers) words ↔
      l.Overflows codec words ∨ RowOverflows codec layers (l.exactForward codec words) := by
  constructor
  · rintro ⟨k, q, at_k, overflows⟩
    cases k with
    | zero =>
      obtain rfl : l = q := by simpa using at_k
      exact .inl overflows
    | succ k => exact .inr ⟨k, q, at_k, overflows⟩
  · rintro (overflows | ⟨k, q, at_k, overflows⟩)
    · exact ⟨0, l, rfl, overflows⟩
    · exact ⟨k + 1, q, at_k, overflows⟩

/-- A row goes through chained layers as the reference says, and the flag is set once a layer
    overflows. -/
theorem foldlM_forwardWords (chained : Chained words.length layers) (flag : Bool) :
    ∃ flag', layers.foldlM (fun row l => l.forwardWords codec row) ⟨words, flag⟩ =
        .ok ⟨exactRow codec layers words, flag'⟩ ∧
      (flag' = true ↔ flag = true ∨ RowOverflows codec layers words) := by
  -- on the layers, with the flag left open: each layer gets it as the one before has set it
  induction layers generalizing words flag with
  | nil => exact ⟨flag, rfl, by simp [RowOverflows]⟩
  | cons l layers ih =>
    obtain _ | ⟨width, consistent, chained⟩ := chained
    obtain ⟨flag₁, step, flag₁_iff⟩ := consistent.forwardWords_eq codec width.symm flag
    have chained' : Chained (l.exactForward codec words).length layers := by simpa
    obtain ⟨flag₂, run, flag₂_iff⟩ := ih chained' flag₁
    refine ⟨flag₂, ?_, ?_⟩
    · rw [List.foldlM_cons, step]
      exact run
    · rw [flag₂_iff, flag₁_iff, rowOverflows_cons, or_assoc]

theorem length_exactRow (chained : Chained words.length layers) (nonempty : layers ≠ []) :
    ∃ head, layers.getLast? = some head ∧ (exactRow codec layers words).length = head.outputs := by
  induction layers generalizing words with
  | nil => exact absurd rfl nonempty
  | cons l layers ih =>
    obtain _ | ⟨_, consistent, chained⟩ := chained
    cases layers with
    | nil => exact ⟨l, rfl, by simp [exactRow]⟩
    | cons next layers =>
      have chained' : Chained (l.exactForward codec words).length (next :: layers) := by simpa
      obtain ⟨head, last, length⟩ := ih chained' (List.cons_ne_nil next layers)
      exact ⟨head, by rwa [List.getLast?_cons_cons], length⟩

/-- The output has one row for each row of the input, as wide as the head, which the reference gives
    from that row alone. -/
structure Computes (m : FixedPointModel) (input output : Tensor) : Prop where
  rows : output.rows = input.rows
  columns : output.columns = m.outputs
  length : output.data.length = output.rows * output.columns
  row : ∀ r < input.rows, ∃ words, input.row r = .ok words ∧
    output.row r = .ok (exactRow m.codec m.network.layers words)

/-- On the way of some row of the input, a quotient is outside the range of a word. -/
def Overflows (m : FixedPointModel) (input : Tensor) : Prop :=
  ∃ r < input.rows, ∃ words, input.row r = .ok words ∧
    RowOverflows m.codec m.network.layers words

variable {m : FixedPointModel} {input : Tensor}

/-- A tensor of another width is refused before anything is computed. -/
theorem infer_of_columns_ne (mismatch : input.columns ≠ m.network.inputs) :
    m.infer input = Logged.fail
      (.error (.shapeMismatch [input.rows, m.network.inputs] [input.rows, input.columns])) := by
  rw [infer, inferBy, if_pos mismatch]
  rfl

theorem inferBy_of_rows {through : List Int64 → Except Fault WordRow} {parts : List (List Int64)}
    {rows : List WordRow} (columns : input.columns = m.network.inputs)
    (read : (List.range input.rows).mapM input.row = .ok parts)
    (run : parts.mapM through = .ok rows) :
    m.inferBy through input = ⟨.ok ⟨input.rows, m.outputs, (rows.map WordRow.words).flatten⟩,
      if rows.any WordRow.overflowed then [.wrapped m.codec.fractionBits] else []⟩ := by
  have read' : (liftM ((List.range input.rows).mapM input.row) : Logged _) = pure parts := by
    rw [read]
    rfl
  have run' : (liftM (parts.mapM through) : Logged _) = pure rows := by
    rw [run]
    rfl
  rw [inferBy, if_neg (not_not.mpr columns)]
  simp only [pure_bind, read', run']
  by_cases overflowed : rows.any WordRow.overflowed
  · simp only [if_pos overflowed]
    rfl
  · simp only [if_neg overflowed]
    rfl

open Classical in
/-- A row through a well-formed model is what the reference gives. -/
theorem inferRow_eq (wellFormed : m.network.WellFormed) {words : List Int64}
    (width : words.length = m.network.inputs) :
    m.inferRow words = .ok ⟨exactRow m.codec m.network.layers words,
      decide (RowOverflows m.codec m.network.layers words)⟩ := by
  have chained : Chained words.length m.network.layers := width ▸ wellFormed.chained
  obtain ⟨flag, run, flag_iff⟩ := foldlM_forwardWords m.codec chained false
  have decided : flag = decide (RowOverflows m.codec m.network.layers words) := by
    rw [Bool.eq_iff_iff, flag_iff]
    simp
  rw [inferRow, run, decided]

theorem length_exactRow_eq_outputs (wellFormed : m.network.WellFormed) {words : List Int64}
    (width : words.length = m.network.inputs) :
    (exactRow m.codec m.network.layers words).length = m.outputs := by
  have chained : Chained words.length m.network.layers := width ▸ wellFormed.chained
  obtain ⟨head, last, length⟩ := length_exactRow m.codec chained wellFormed.layers_ne_nil
  rw [length, FixedPointModel.outputs, Network.outputs, last]

theorem overflows_iff_mem_rowList (whole : input.Whole) : m.Overflows input ↔
    ∃ words ∈ input.rowList, RowOverflows m.codec m.network.layers words := by
  constructor
  · rintro ⟨r, below, words, read, overflows⟩
    exact ⟨words, whole.mem_rowList_iff.mpr ⟨r, below, read⟩, overflows⟩
  · rintro ⟨words, member, overflows⟩
    obtain ⟨r, below, read⟩ := whole.mem_rowList_iff.mp member
    exact ⟨r, below, words, read, overflows⟩

/-- A whole tensor of the right width goes through a well-formed model as the reference says. -/
theorem infer_eq (wellFormed : m.network.WellFormed) (whole : input.Whole)
    (columns : input.columns = m.network.inputs) :
    ∃ output events, m.infer input = ⟨.ok output, events⟩ ∧ m.Computes input output ∧
      (m.Overflows input ∧ events = [.wrapped m.codec.fractionBits] ∨
        ¬ m.Overflows input ∧ events = []) := by
  classical
  have width : ∀ words ∈ input.rowList, words.length = m.network.inputs :=
    fun words member => (whole.length_row member).trans columns
  have run : input.rowList.mapM m.inferRow = .ok (input.rowList.map fun words =>
      ⟨exactRow m.codec m.network.layers words,
        decide (RowOverflows m.codec m.network.layers words)⟩) :=
    mapM_eq_ok fun words member => inferRow_eq wellFormed (width words member)
  have parts : ∀ part ∈ input.rowList.map (exactRow m.codec m.network.layers),
      part.length = m.outputs := by
    intro part member
    obtain ⟨words, words_member, rfl⟩ := List.mem_map.mp member
    exact length_exactRow_eq_outputs wellFormed (width words words_member)
  have read : ∀ r < input.rows, ∃ words, input.rowList[r]? = some words :=
    fun r below => ⟨_, List.getElem?_eq_getElem (by simpa using below)⟩
  rw [infer, inferBy_of_rows columns whole.mapM_row run, List.map_map]
  refine ⟨_, _, rfl, ⟨rfl, rfl, ?_, ?_⟩, ?_⟩
  · exact Tensor.length_flatten (by simp) parts
  · intro r below
    obtain ⟨words, at_r⟩ := read r below
    refine ⟨words, whole.row_eq at_r, Tensor.row_flatten (by simp) parts ?_⟩
    rw [List.getElem?_map, at_r]
    rfl
  · rw [overflows_iff_mem_rowList whole]
    by_cases wraps : ∃ words ∈ input.rowList, RowOverflows m.codec m.network.layers words
    · exact .inl ⟨wraps, by simpa using wraps⟩
    · exact .inr ⟨wraps, by simpa using wraps⟩

/-- The model of an accepted network refuses tensors of another width and computes the reference on
    all others. It reports once when a quotient is outside the range of a word, else nothing. -/
theorem infer_exact {given : Nat} {literals : List (Layer Parameter)} {n : Network Parameter}
    (accepted : ofLayers given literals = .ok n) (codec : Codec) :
    ∃ m, (ofNetwork codec n).outcome = .ok m ∧ m.codec = codec ∧ m.outputs = n.outputs ∧
      ∀ input : Tensor, input.Whole →
        (m.infer input = Logged.fail
            (.error (.shapeMismatch [input.rows, n.inputs] [input.rows, input.columns])) ↔
          input.columns ≠ n.inputs) ∧
        (input.columns = n.inputs → ∃ output events, m.infer input = ⟨.ok output, events⟩ ∧
          m.Computes input output ∧
          (m.Overflows input ∧ events = [.wrapped codec.fractionBits] ∨
            ¬ m.Overflows input ∧ events = [])) := by
  let m : FixedPointModel := ⟨codec, n.map fun p => codec.quantize p.real⟩
  have wellFormed : m.network.WellFormed := (wellFormed_of_ofLayers_eq_ok accepted).map _
  refine ⟨m, rfl, rfl, outputs_map _ n, ?_⟩
  intro input whole
  refine ⟨⟨?_, ?_⟩, ?_⟩
  · intro refused columns
    obtain ⟨output, events, ok, -⟩ := infer_eq wellFormed whole columns
    rw [ok] at refused
    have outcomes := congrArg Logged.outcome refused
    simp [Logged.fail] at outcomes
  · intro mismatch
    exact infer_of_columns_ne mismatch
  · intro columns
    exact infer_eq wellFormed whole columns

theorem infer_exact_small :
    ofLayers small.inputs small.layers = .ok small ∧
      Tensor.Whole ⟨2, 2, [65536, -65536, 0, 4611686018427387904]⟩ ∧
      ∃ m, (ofNetwork Codec.default small).outcome = .ok m ∧
        ∃ output events, m.infer ⟨2, 2, [65536, -65536, 0, 4611686018427387904]⟩ =
          ⟨.ok output, events⟩ ∧
        m.Computes ⟨2, 2, [65536, -65536, 0, 4611686018427387904]⟩ output := by
  have whole : Tensor.Whole ⟨2, 2, [65536, -65536, 0, 4611686018427387904]⟩ := by
    unfold Tensor.Whole
    decide
  have accepted : ofLayers small.inputs small.layers = .ok small := rfl
  obtain ⟨m, made, -, -, exact⟩ := infer_exact accepted Codec.default
  obtain ⟨-, computed⟩ := exact _ whole
  obtain ⟨output, events, ok, computes, -⟩ := computed rfl
  exact ⟨accepted, whole, m, made, output, events, ok, computes⟩

end FixedPointModel

end FixedPointNet
