import FixedPointNet.Proofs.Codec
import FixedPointNet.Proofs.IntegerEngine.Exact
import Mathlib.Algebra.BigOperators.Field
import Mathlib.Algebra.Order.BigOperators.Group.Finset
import Mathlib.Algebra.Order.Group.MinMax

/-!
# How far the integer engine is from the network

The network itself computes with rational numbers: the exact values of its parameters, without any
rounding. The words of the engine stand for multiples of `2 ^ (-B)`. As long as no value leaves the
range of a word, their distance from the numbers of the network is bounded: in a layer, an error of
the inputs is multiplied by the weights, and quantized weights, a quantized bias and the division of
the sum add at most one unit each.
-/

namespace FixedPointNet

/-- The number of a float, zero where there is none. -/
def Binary32.rational (x : Float32) : ℚ :=
  (value? x).getD 0

/-- The number that a parameter stands for. -/
def Parameter.rational (p : Parameter) : ℚ :=
  Binary32.rational p.value

namespace Codec

/-- The number that the last bit of a word stands for. -/
def unit (codec : Codec) : ℚ :=
  1 / 2 ^ codec.fractionBits

/-- The number that a word stands for. -/
def number (codec : Codec) (q : Int64) : ℚ :=
  q.toInt / 2 ^ codec.fractionBits

variable (codec : Codec)

theorem unit_pos : 0 < codec.unit :=
  div_pos one_pos (pow_pos two_pos _)

theorem number_eq (q : Int64) : codec.number q = q.toInt * codec.unit := by
  rw [number, unit, mul_one_div]

/-- Rounding a multiple of the unit towards the floor loses less than a unit. -/
theorem abs_floor_mul_unit_sub (v : ℚ) : |⌊v⌋ * codec.unit - v * codec.unit| ≤ codec.unit := by
  have unit_pos := codec.unit_pos
  have low := Int.floor_le v
  have high := Int.lt_floor_add_one v
  rw [← sub_mul, abs_mul, abs_of_pos unit_pos]
  apply mul_le_of_le_one_left unit_pos.le
  rw [abs_le]
  constructor <;> linarith

variable {codec}

/-- A word is at most one unit away from the number that it is made from. -/
theorem abs_number_quantize_sub {x : Float32}
    (unsaturated : codec.saturates (Binary32.widen x) = false) :
    |codec.number (codec.quantize (Binary32.widen x)) - Binary32.rational x| ≤ codec.unit := by
  obtain ⟨v, value, word⟩ := exists_toInt_quantize unsaturated
  have scaled : v * 2 ^ codec.fractionBits * codec.unit = v := by
    rw [unit]
    field_simp
  have distance := codec.abs_floor_mul_unit_sub (v * 2 ^ codec.fractionBits)
  rw [scaled, ← word, ← number_eq] at distance
  rwa [Binary32.rational, value, Option.getD_some]

end Codec

namespace Layer

/-- The sum of all products that enter output `o`, plus its bias. -/
def rationalSum (l : Layer ℚ) (h : List ℚ) (o : Nat) : ℚ :=
  ∑ i ∈ Finset.range l.inputs, h.getD i 0 * (l.weight? i o).getD 0 + l.bias.getD o 0

/-- A vector through a hidden layer. -/
def rationalForward (l : Layer ℚ) (h : List ℚ) : List ℚ :=
  (List.range l.outputs).map fun o => max (l.rationalSum h o) 0

/-- How far output `o` can be off, where the inputs are off by at most `e` from the vector `h`. -/
def outputError (codec : Codec) (l : Layer ℚ) (h : List ℚ) (e : ℚ) (o : Nat) : ℚ :=
  ∑ i ∈ Finset.range l.inputs,
    (e * (|(l.weight? i o).getD 0| + codec.unit) + |h.getD i 0| * codec.unit) + 2 * codec.unit

/-- How far any output can be off. -/
def errorBound (codec : Codec) (l : Layer ℚ) (h : List ℚ) (e : ℚ) : ℚ :=
  ((List.range l.outputs).map (l.outputError codec h e)).foldr max 0

/-- No parameter of a layer saturates. -/
def Unsaturated (codec : Codec) (l : Layer Parameter) : Prop :=
  ∀ p ∈ l.weights ++ l.bias, codec.saturates p.real = false

/-- The layer with its parameters as words. -/
abbrev quantized (codec : Codec) (l : Layer Parameter) : Layer Int64 :=
  l.map fun p => codec.quantize p.real

/-- The layer with its parameters as numbers. -/
abbrev rational (l : Layer Parameter) : Layer ℚ :=
  l.map Parameter.rational

/-- No quotient of a row of words leaves the range of a word once the bias is added. -/
def StaysInRange (codec : Codec) (q : Layer Int64) (words : List Int64) : Prop :=
  ∀ o < q.outputs, Codec.minWord ≤ q.exactQuotient codec words o + (q.bias.getD o 0).toInt ∧
    q.exactQuotient codec words o + (q.bias.getD o 0).toInt ≤ Codec.maxWord

/-- The words of a row stand for numbers that are at most `e` off a vector. -/
structure Approximates (codec : Codec) (e : ℚ) (words : List Int64) (h : List ℚ) : Prop where
  length : words.length = h.length
  distance : ∀ i, |codec.number (words.getD i 0) - h.getD i 0| ≤ e

theorem weight?_map {α β : Type} (f : α → β) (l : Layer α) (i o : Nat) :
    (l.map f).weight? i o = (l.weight? i o).map f :=
  List.getElem?_map

theorem le_foldr_max {x : ℚ} {xs : List ℚ} (member : x ∈ xs) : x ≤ xs.foldr max 0 := by
  induction xs with
  | nil => cases member
  | cons y ys ih =>
    rw [List.foldr_cons]
    rcases List.mem_cons.mp member with rfl | later
    · exact le_max_left _ _
    · exact (ih later).trans (le_max_right _ _)

theorem outputError_le_errorBound (codec : Codec) {l : Layer ℚ} (h : List ℚ) (e : ℚ) {o : Nat}
    (below : o < l.outputs) : l.outputError codec h e o ≤ l.errorBound codec h e :=
  le_foldr_max (List.mem_map_of_mem (List.mem_range.mpr below))

/-- An error of a factor counts with the other factor, which itself is off by a unit. -/
theorem abs_mul_sub_mul_le {a h x w e u : ℚ} (near : |a - h| ≤ e) (near' : |x - w| ≤ u) :
    |a * x - h * w| ≤ e * (|w| + u) + |h| * u := by
  have e_nonneg : 0 ≤ e := (abs_nonneg _).trans near
  have x_le : |x| ≤ |w| + u := by
    have split := abs_add_le w (x - w)
    rw [add_sub_cancel] at split
    linarith
  have parts : a * x - h * w = (a - h) * x + h * (x - w) := by ring
  rw [parts]
  refine (abs_add_le _ _).trans (add_le_add ?_ ?_)
  · rw [abs_mul]
    exact mul_le_mul near x_le (abs_nonneg x) e_nonneg
  · rw [abs_mul]
    exact mul_le_mul_of_nonneg_left near' (abs_nonneg h)

variable {codec : Codec} {l : Layer Parameter} {words : List Int64} {h : List ℚ} {e : ℚ}

theorem abs_number_getD_sub {ps : List Parameter} {p? : Option Parameter}
    (unsaturated : ∀ p ∈ ps, codec.saturates p.real = false) (member : ∀ p ∈ p?, p ∈ ps) :
    |codec.number ((p?.map fun p => codec.quantize p.real).getD 0) -
      (p?.map Parameter.rational).getD 0| ≤ codec.unit := by
  cases p? with
  | none => simpa [Codec.number] using codec.unit_pos.le
  | some p => exact Codec.abs_number_quantize_sub (unsaturated p (member p rfl))

theorem Unsaturated.weight (unsaturated : l.Unsaturated codec) (i o : Nat) :
    |codec.number (((l.quantized codec).weight? i o).getD 0) - (l.rational.weight? i o).getD 0| ≤
      codec.unit := by
  rw [weight?_map, weight?_map]
  apply abs_number_getD_sub unsaturated
  intro p at_p
  exact List.mem_append_left _ (List.mem_of_getElem? at_p)

theorem Unsaturated.bias (unsaturated : l.Unsaturated codec) (o : Nat) :
    |codec.number ((l.quantized codec).bias.getD o 0) - l.rational.bias.getD o 0| ≤
      codec.unit := by
  simp only [Layer.map, List.getD_eq_getElem?_getD, List.getElem?_map]
  apply abs_number_getD_sub unsaturated
  intro p at_p
  exact List.mem_append_right _ (List.mem_of_getElem? at_p)

/-- The exact sum of products of words, as a number. -/
theorem exactSum_mul_unit (codec : Codec) (q : Layer Int64) (words : List Int64) (o : Nat) :
    (q.exactSum words o / 2 ^ codec.fractionBits * codec.unit : ℚ) =
      ∑ i ∈ Finset.range q.inputs,
        codec.number (words.getD i 0) * codec.number ((q.weight? i o).getD 0) := by
  rw [exactSum, Int.cast_sum, Finset.sum_div, Finset.sum_mul]
  apply Finset.sum_congr rfl
  intro i _
  rw [Codec.number_eq, Codec.number_eq, Codec.unit]
  push_cast
  ring

/-- A quotient plus a bias, where the inputs are off by at most `e`. -/
theorem Unsaturated.abs_quotient_add_bias_sub (unsaturated : l.Unsaturated codec)
    (approximates : Approximates codec e words h) (o : Nat) :
    |(((l.quantized codec).exactQuotient codec words o +
        ((l.quantized codec).bias.getD o 0).toInt : ℤ) : ℚ) * codec.unit -
      l.rational.rationalSum h o| ≤ l.rational.outputError codec h e o := by
  have quotient := codec.abs_floor_mul_unit_sub
    ((l.quantized codec).exactSum words o / 2 ^ codec.fractionBits)
  rw [exactSum_mul_unit] at quotient
  have bias := unsaturated.bias o
  rw [Codec.number_eq] at bias
  have products : |∑ i ∈ Finset.range l.inputs,
        codec.number (words.getD i 0) * codec.number (((l.quantized codec).weight? i o).getD 0) -
      ∑ i ∈ Finset.range l.inputs, h.getD i 0 * (l.rational.weight? i o).getD 0| ≤
      ∑ i ∈ Finset.range l.inputs, (e * (|(l.rational.weight? i o).getD 0| + codec.unit) +
        |h.getD i 0| * codec.unit) := by
    rw [← Finset.sum_sub_distrib]
    refine (Finset.abs_sum_le_sum_abs _ _).trans (Finset.sum_le_sum fun i _ => ?_)
    exact abs_mul_sub_mul_le (approximates.distance i) (unsaturated.weight i o)
  rw [outputError, rationalSum, exactQuotient]
  rw [abs_le] at quotient bias products ⊢
  have inputs : (l.quantized codec).inputs = l.inputs := rfl
  have inputs' : l.rational.inputs = l.inputs := rfl
  rw [inputs] at quotient
  rw [inputs']
  push_cast
  constructor <;> linarith

/-- The preactivations of a layer that stays in range are the quotients plus the biases. -/
theorem StaysInRange.toInt_exactPreactivation {q : Layer Int64} (stays : q.StaysInRange codec words)
    {o : Nat} (below : o < q.outputs) :
    (Int64.ofInt (q.exactPreactivation codec words o)).toInt =
      q.exactQuotient codec words o + (q.bias.getD o 0).toInt := by
  obtain ⟨low, high⟩ := stays o below
  unfold Codec.minWord at low
  unfold Codec.maxWord at high
  have fits : (q.exactQuotient codec words o + (q.bias.getD o 0).toInt).bmod (2 ^ 64) =
      q.exactQuotient codec words o + (q.bias.getD o 0).toInt :=
    Int.bmod_eq_of_le (by omega) (by omega)
  rw [exactPreactivation, fits]
  exact Int64.toInt_ofInt_of_le low (Int.lt_add_one_of_le high)

/-- The preactivations of a layer are off by no more than its error bound. -/
theorem Unsaturated.abs_preactivation_sub (unsaturated : l.Unsaturated codec)
    (approximates : Approximates codec e words h)
    (stays : (l.quantized codec).StaysInRange codec words) {o : Nat} (below : o < l.outputs) :
    |codec.number (Int64.ofInt ((l.quantized codec).exactPreactivation codec words o)) -
      l.rational.rationalSum h o| ≤ l.rational.errorBound codec h e := by
  rw [Codec.number_eq, stays.toInt_exactPreactivation below]
  exact (unsaturated.abs_quotient_add_bias_sub approximates o).trans
    (outputError_le_errorBound codec h e below)

theorem number_max_zero (codec : Codec) (q : Int64) :
    codec.number (max q 0) = max (codec.number q) 0 := by
  have unit_pos := codec.unit_pos
  have rectified : (max q 0).toInt = max q.toInt 0 := by
    change (if q ≤ 0 then 0 else q).toInt = max q.toInt 0
    split_ifs with nonpos
    · exact (max_eq_right (Int64.le_iff_toInt_le.mp nonpos)).symm
    · rw [Int64.le_iff_toInt_le, not_le] at nonpos
      exact (max_eq_left nonpos.le).symm
  rw [Codec.number_eq, Codec.number_eq, rectified, Int.cast_max, Int.cast_zero,
    max_mul_of_nonneg _ _ unit_pos.le, zero_mul]

theorem errorBound_nonneg (codec : Codec) (l : Layer ℚ) (h : List ℚ) (e : ℚ) :
    0 ≤ l.errorBound codec h e := by
  unfold errorBound
  induction (List.range l.outputs).map (l.outputError codec h e) with
  | nil => exact le_rfl
  | cons x xs ih => exact ih.trans (le_max_right _ _)

/-- Rectifying brings no two numbers farther apart. -/
theorem Unsaturated.forward (unsaturated : l.Unsaturated codec)
    (approximates : Approximates codec e words h)
    (stays : (l.quantized codec).StaysInRange codec words) (rectifies : l.activation = .relu) :
    Approximates codec (l.rational.errorBound codec h e) ((l.quantized codec).exactForward codec words)
      (l.rational.rationalForward h) where
  length := by simp [rationalForward, Layer.map]
  distance := by
    intro o
    have rectifies' : (l.quantized codec).activation = .relu := rectifies
    rw [exactForward, rectifies', Activation.applyWords, rationalForward, List.map_map]
    by_cases below : o < l.outputs
    · have at_o : (List.range (l.quantized codec).outputs)[o]? = some o := List.getElem?_range below
      have at_o' : (List.range l.rational.outputs)[o]? = some o := List.getElem?_range below
      simp only [List.getD_eq_getElem?_getD, List.getElem?_map, at_o, at_o', Option.map_some,
        Option.getD_some, Function.comp_apply, number_max_zero]
      exact (abs_max_sub_max_le_abs _ _ 0).trans
        (unsaturated.abs_preactivation_sub approximates stays below)
    · rw [not_lt] at below
      have past : (List.range (l.quantized codec).outputs)[o]? = none :=
        List.getElem?_eq_none (by rwa [List.length_range])
      have past' : (List.range l.rational.outputs)[o]? = none :=
        List.getElem?_eq_none (by rwa [List.length_range])
      simpa [past, past', Codec.number] using errorBound_nonneg codec l.rational h e

end Layer

/-- The exact numbers that enter a layer, and how far the words that enter it may be off. -/
structure Reference where
  vector : List ℚ
  error : ℚ

namespace Reference

/-- The reference behind a hidden layer. -/
def after (codec : Codec) (r : Reference) (l : Layer ℚ) : Reference :=
  ⟨l.rationalForward r.vector, l.errorBound codec r.vector r.error⟩

/-- The reference behind the first `k` layers. -/
def behind (codec : Codec) (r : Reference) (layers : List (Layer Parameter)) (k : Nat) : Reference :=
  (layers.take k).foldl (fun r l => r.after codec l.rational) r

/-- The reference behind the first `k` layers for a sample: it begins with the features, which
    quantization moves by less than a unit. -/
def ofSample (codec : Codec) (n : Network Parameter) (xs : List Float32) (k : Nat) : Reference :=
  behind codec ⟨xs.map Binary32.rational, codec.unit⟩ n.layers k

theorem behind_cons (codec : Codec) (r : Reference) (l : Layer Parameter)
    (layers : List (Layer Parameter)) (k : Nat) :
    r.behind codec (l :: layers) (k + 1) = (r.after codec l.rational).behind codec layers k :=
  rfl

theorem behind_succ (codec : Codec) (r : Reference) {layers : List (Layer Parameter)} {k : Nat}
    {l : Layer Parameter} (at_k : layers[k]? = some l) :
    r.behind codec layers (k + 1) = (r.behind codec layers k).after codec l.rational := by
  rw [behind, List.take_add_one, at_k, List.foldl_append]
  rfl

end Reference

namespace FixedPointModel

open Network

/-- The row of words of a sample. -/
def sampleRow (codec : Codec) (xs : List Float32) : WordRow :=
  ⟨xs.map fun x => codec.quantize (Binary32.widen x), false⟩

/-- The row behind the first `k` layers. -/
def rowBehind (codec : Codec) (layers : List (Layer Int64)) (k : Nat) (row : WordRow) :
    Except Fault WordRow :=
  (layers.take k).foldlM (fun row q => q.forwardWords codec row) row

variable {codec : Codec}

theorem rowBehind_cons {q : Layer Int64} {row next : WordRow}
    (step : q.forwardWords codec row = .ok next) (layers : List (Layer Int64)) (k : Nat) :
    rowBehind codec (q :: layers) (k + 1) row = rowBehind codec layers k next := by
  rw [rowBehind, List.take_succ_cons, List.foldlM_cons, step]
  rfl

/-- Up to the head, the words stay as close to the exact numbers as the reference says. -/
theorem exists_rowBehind {layers : List (Layer Parameter)} {words : List Int64} {flag : Bool}
    {r : Reference} (chained : Chained words.length layers)
    (settled : assignActivations layers = layers)
    (unsaturated : ∀ l ∈ layers, l.Unsaturated codec)
    (approximates : Layer.Approximates codec r.error words r.vector)
    (inRange : ∀ k q row, (layers.map (Layer.quantized codec))[k]? = some q →
      rowBehind codec (layers.map (Layer.quantized codec)) k ⟨words, flag⟩ = .ok row →
      q.StaysInRange codec row.words)
    {k : Nat} {l : Layer Parameter} (at_k : layers[k]? = some l) :
    ∃ row, rowBehind codec (layers.map (Layer.quantized codec)) k ⟨words, flag⟩ = .ok row ∧
      Layer.Approximates codec (r.behind codec layers k).error row.words
        (r.behind codec layers k).vector ∧ row.words.length = l.inputs ∧ l.Consistent := by
  -- on the layers: behind the first one, its outputs are the sample of the rest
  induction layers generalizing words flag r k with
  | nil => cases at_k
  | cons first layers ih =>
    obtain _ | ⟨width, consistent, chained⟩ := chained
    obtain ⟨own, rest⟩ := List.cons.inj settled
    cases k with
    | zero =>
      obtain rfl : first = l := by simpa using at_k
      exact ⟨⟨words, flag⟩, rfl, approximates, width.symm, consistent⟩
    | succ k =>
      have hidden : layers.isEmpty = false := by
        rw [List.isEmpty_eq_false_iff]
        rintro rfl
        cases at_k
      have rectifies : first.activation = .relu := by
        rw [← congrArg Layer.activation own, hidden]
        rfl
      have consistent' : (first.quantized codec).Consistent := consistent.map _
      obtain ⟨flag', step, -⟩ := consistent'.forwardWords_eq codec width.symm flag
      have stays : (first.quantized codec).StaysInRange codec words :=
        inRange 0 _ ⟨words, flag⟩ rfl rfl
      have unsaturated_first := unsaturated first List.mem_cons_self
      have approximates' := unsaturated_first.forward approximates stays rectifies
      have runs := rowBehind_cons step (layers.map (Layer.quantized codec))
      rw [List.map_cons, runs, Reference.behind_cons]
      apply ih _ rest (fun l member => unsaturated l (List.mem_cons_of_mem first member))
        approximates' _ at_k
      · rw [Layer.length_exactForward]
        exact chained
      · intro k q row at_k ran
        rw [← runs] at ran
        exact inRange (k + 1) q row at_k ran

/-- The words of a sample are less than a unit off its features. -/
theorem approximates_sample {xs : List Float32}
    (features : ∀ x ∈ xs, codec.saturates (Binary32.widen x) = false) :
    Layer.Approximates codec codec.unit (sampleRow codec xs).words (xs.map Binary32.rational) where
  length := by simp [sampleRow]
  distance := by
    intro i
    simp only [sampleRow, List.getD_eq_getElem?_getD, List.getElem?_map]
    cases at_i : xs[i]? with
    | none => simpa [Codec.number] using codec.unit_pos.le
    | some x => exact Codec.abs_number_quantize_sub (features x (List.mem_of_getElem? at_i))

/-- The engine follows the network it is made from. As long as no parameter and no feature saturates
    and no quotient plus bias leaves the range of a word, each preactivation of a layer stands for a
    number no farther from the exact one than the error of the reference behind that layer, and so
    does each word that leaves a hidden layer. -/
theorem abs_number_sub_le_error {given : Nat} {literals : List (Layer Parameter)}
    {n : Network Parameter} (accepted : ofLayers given literals = .ok n) (codec : Codec)
    {m : FixedPointModel} (made : (ofNetwork codec n).outcome = .ok m) {xs : List Float32}
    (width : xs.length = n.inputs) (parameters : ∀ l ∈ n.layers, l.Unsaturated codec)
    (features : ∀ x ∈ xs, codec.saturates (Binary32.widen x) = false)
    (inRange : ∀ k q row, m.network.layers[k]? = some q →
      rowBehind codec m.network.layers k (sampleRow codec xs) = .ok row →
      q.StaysInRange codec row.words)
    {k : Nat} {l : Layer Parameter} (at_k : n.layers[k]? = some l) :
    ∃ q row sums, m.network.layers[k]? = some q ∧
      rowBehind codec m.network.layers k (sampleRow codec xs) = .ok row ∧
      q.wordSums row.words = .ok sums ∧
      (∀ o < l.outputs, ∃ word, (q.preactivation codec sums)[o]? = some word ∧
        |codec.number word - l.rational.rationalSum (Reference.ofSample codec n xs k).vector o| ≤
          (Reference.ofSample codec n xs (k + 1)).error) ∧
      (k + 1 < n.layers.length → ∃ next,
        rowBehind codec m.network.layers (k + 1) (sampleRow codec xs) = .ok next ∧
        ∀ o < l.outputs, ∃ word v, next.words[o]? = some word ∧
          (Reference.ofSample codec n xs (k + 1)).vector[o]? = some v ∧
          |codec.number word - v| ≤ (Reference.ofSample codec n xs (k + 1)).error) := by
  have wellFormed := wellFormed_of_ofLayers_eq_ok accepted
  obtain rfl : m = ⟨codec, n.map fun p => codec.quantize p.real⟩ := (Except.ok.inj made).symm
  have chained : Chained (sampleRow codec xs).words.length n.layers := by
    rw [sampleRow, List.length_map, width]
    exact wellFormed.chained
  have behind {k : Nat} {l : Layer Parameter} (at_k : n.layers[k]? = some l) :
      ∃ row, rowBehind codec (n.layers.map (Layer.quantized codec)) k (sampleRow codec xs) = .ok row ∧
        Layer.Approximates codec (Reference.ofSample codec n xs k).error row.words
          (Reference.ofSample codec n xs k).vector ∧ row.words.length = l.inputs ∧ l.Consistent :=
    exists_rowBehind (r := ⟨_, _⟩) chained wellFormed.activations parameters
      (approximates_sample features) inRange at_k
  have next_reference : Reference.ofSample codec n xs (k + 1) =
      (Reference.ofSample codec n xs k).after codec l.rational := Reference.behind_succ codec _ at_k
  obtain ⟨row, ran, approximates, row_width, consistent⟩ := behind at_k
  have consistent' : (l.quantized codec).Consistent := consistent.map _
  have at_k' : (n.layers.map (Layer.quantized codec))[k]? = some (l.quantized codec) := by
    rw [List.getElem?_map, at_k]
    rfl
  have stays := inRange k _ row at_k' ran
  have unsaturated := parameters l (List.mem_of_getElem? at_k)
  refine ⟨_, row, _, at_k', ran, consistent'.wordSums_eq row_width, ?_, ?_⟩
  · intro o below
    have at_o : (List.range (l.quantized codec).outputs)[o]? = some o := List.getElem?_range below
    rw [consistent'.preactivation_eq, List.getElem?_map, at_o, next_reference]
    exact ⟨_, rfl, unsaturated.abs_preactivation_sub approximates stays below⟩
  · intro inner
    obtain ⟨next, next_ran, next_approximates, -, -⟩ := behind (List.getElem?_eq_getElem inner)
    refine ⟨next, next_ran, ?_⟩
    intro o below
    have vector_length : o < (Reference.ofSample codec n xs (k + 1)).vector.length := by
      rw [next_reference, Reference.after, Layer.rationalForward, List.length_map,
        List.length_range]
      exact below
    have words_length : o < next.words.length := next_approximates.length ▸ vector_length
    refine ⟨_, _, List.getElem?_eq_getElem words_length, List.getElem?_eq_getElem vector_length, ?_⟩
    have distance := next_approximates.distance o
    rwa [List.getD_eq_getElem?_getD, List.getD_eq_getElem?_getD,
      List.getElem?_eq_getElem words_length, List.getElem?_eq_getElem vector_length] at distance

/-- One feature, one hidden neuron and one output. -/
def narrow : Network Parameter :=
  ⟨1, [⟨1, 1, [⟨0xBFC00000⟩], [⟨0x3F000000⟩], .relu⟩, ⟨1, 1, [⟨0x3DCCCCCD⟩], [⟨0x40000000⟩], .sigmoid⟩]⟩

theorem abs_number_sub_le_error_narrow :
    ofLayers narrow.inputs narrow.layers = .ok narrow ∧
      (∀ l ∈ narrow.layers, l.Unsaturated Codec.default) ∧
      ∃ m, (ofNetwork Codec.default narrow).outcome = .ok m ∧
        ∃ next, rowBehind Codec.default m.network.layers 1 (sampleRow Codec.default [-0.7]) =
            .ok next ∧ ∃ word v, next.words[0]? = some word ∧
          (Reference.ofSample Codec.default narrow [-0.7] 1).vector[0]? = some v ∧
          |Codec.default.number word - v| ≤
            (Reference.ofSample Codec.default narrow [-0.7] 1).error := by
  have accepted : ofLayers narrow.inputs narrow.layers = .ok narrow := rfl
  have parameters : ∀ l ∈ narrow.layers, l.Unsaturated Codec.default := by
    unfold Layer.Unsaturated
    decide +kernel
  have width : [(-0.7 : Float32)].length = narrow.inputs := rfl
  have features : ∀ x ∈ [(-0.7 : Float32)], Codec.default.saturates (Binary32.widen x) = false := by
    decide +kernel
  have at_0 : narrow.layers[0]? = some ⟨1, 1, [⟨0xBFC00000⟩], [⟨0x3F000000⟩], .relu⟩ := rfl
  let m : FixedPointModel := ⟨Codec.default, narrow.map fun p => Codec.default.quantize p.real⟩
  have made : (ofNetwork Codec.default narrow).outcome = .ok m := rfl
  have inRange : ∀ k q row, m.network.layers[k]? = some q →
      rowBehind Codec.default m.network.layers k (sampleRow Codec.default [-0.7]) = .ok row →
      q.StaysInRange Codec.default row.words := by
    intro k q row at_k ran
    unfold Layer.StaysInRange
    rcases k with _ | _ | k
    · cases at_k
      cases ran
      decide +kernel
    · cases at_k
      cases ran
      decide +kernel
    · cases at_k
  obtain ⟨-, -, -, -, -, -, -, forward⟩ :=
    abs_number_sub_le_error accepted Codec.default made width parameters features inRange at_0
  obtain ⟨next, ran, close⟩ := forward (by decide)
  exact ⟨accepted, parameters, m, made, next, ran, close 0 (by decide)⟩

end FixedPointModel

end FixedPointNet
