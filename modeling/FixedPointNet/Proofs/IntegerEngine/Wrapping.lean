import FixedPointNet.Proofs.IntegerEngine.Accumulator

/-!
# What the report of a pass leaves out

A pass reports that values wrapped when a rescaled sum does not fit a word. The bias is added after
that, modulo the size of a word, and the sum of two words can leave their range as well. So while
accumulators hold all partial sums, a pass without a report has wrapped no rescaled sum, and what it
stores before an activation is the exact integer precisely where that integer is a word; elsewhere
it is off by the number of words. Where an accumulator overflows, that goes without a report too.
-/

namespace FixedPointNet

namespace Layer

/-- The integer that output `o` stands for before its activation: the floor of the quotient plus the
    bias, without a bound. -/
def exactTotal (codec : Codec) (q : Layer Int64) (words : List Int64) (o : Nat) : Int :=
  q.exactQuotient codec words o + (q.bias.getD o 0).toInt

/-- The word that is stored for output `o` in a pass that reports nothing. The quotient has not
    wrapped; adding the bias wraps where the total leaves the range of a word. -/
structure Stores (codec : Codec) (q : Layer Int64) (words : List Int64) (o : Nat) (word : Int64) :
    Prop where
  quotient_fits : Codec.minWord ≤ q.exactQuotient codec words o ∧
    q.exactQuotient codec words o ≤ Codec.maxWord
  exact_iff : word.toInt = q.exactTotal codec words o ↔
    Codec.minWord ≤ q.exactTotal codec words o ∧ q.exactTotal codec words o ≤ Codec.maxWord
  above : Codec.maxWord < q.exactTotal codec words o →
    word.toInt = q.exactTotal codec words o - 2 ^ 64
  below : q.exactTotal codec words o < Codec.minWord →
    word.toInt = q.exactTotal codec words o + 2 ^ 64

variable {codec : Codec} {q : Layer Int64} {words : List Int64} {o : Nat}

theorem toInt_mem_words (word : Int64) :
    Codec.minWord ≤ word.toInt ∧ word.toInt ≤ Codec.maxWord :=
  ⟨word.le_toInt, Int.le_of_lt_add_one word.toInt_lt⟩

/-- An integer that is at most half the number of words off their range is moved into it by the
    number of words. -/
theorem bmod_words_cases {total : Int} (low : Codec.minWord - 2 ^ 63 ≤ total)
    (high : total ≤ Codec.maxWord + 2 ^ 63) :
    (Codec.minWord ≤ total ∧ total ≤ Codec.maxWord) ∧ total.bmod (2 ^ 64) = total ∨
      Codec.maxWord < total ∧ total.bmod (2 ^ 64) = total - 2 ^ 64 ∨
      total < Codec.minWord ∧ total.bmod (2 ^ 64) = total + 2 ^ 64 := by
  unfold Codec.minWord Codec.maxWord at *
  rw [Int.bmod_def]
  omega

/-- A quotient that fits a word leaves the addition of the bias as the only place to wrap. -/
theorem stores_of_quotient_fits (low : Codec.minWord ≤ q.exactQuotient codec words o)
    (high : q.exactQuotient codec words o ≤ Codec.maxWord) :
    q.Stores codec words o (Int64.ofInt (q.exactPreactivation codec words o)) := by
  obtain ⟨bias_low, bias_high⟩ := toInt_mem_words (q.bias.getD o 0)
  have stored : (Int64.ofInt (q.exactPreactivation codec words o)).toInt =
      (q.exactTotal codec words o).bmod (2 ^ 64) := by
    rw [exactPreactivation, Int64.toInt_ofInt]
    exact Int.bmod_bmod
  have total_low : Codec.minWord - 2 ^ 63 ≤ q.exactTotal codec words o := by
    unfold exactTotal Codec.minWord at *
    omega
  have total_high : q.exactTotal codec words o ≤ Codec.maxWord + 2 ^ 63 := by
    unfold exactTotal Codec.maxWord at *
    omega
  have ordered : Codec.minWord ≤ Codec.maxWord := by decide
  refine ⟨⟨low, high⟩, ?_, ?_, ?_⟩ <;> rw [stored] <;>
    rcases bmod_words_cases total_low total_high with ⟨_, same⟩ | ⟨_, lowered⟩ | ⟨_, raised⟩ <;>
    omega

end Layer

namespace FixedPointModel

open Network

variable {codec : Codec} {layers : List (Layer Int64)} {words : List Int64} {k : Nat}
  {q : Layer Int64}

/-- The row that enters a layer is the one that the reference gives behind the layers before it. -/
theorem exists_rowBehind_exact (codec : Codec) (chained : Chained words.length layers)
    (flag : Bool) (at_k : layers[k]? = some q) :
    ∃ flag', rowBehind codec layers k ⟨words, flag⟩ =
        .ok ⟨exactRow codec (layers.take k) words, flag'⟩ ∧
      (exactRow codec (layers.take k) words).length = q.inputs ∧ q.Consistent := by
  induction layers generalizing words flag k with
  | nil => cases at_k
  | cons first layers ih =>
    obtain _ | ⟨width, consistent, chained⟩ := chained
    cases k with
    | zero =>
      obtain rfl : first = q := by simpa using at_k
      exact ⟨flag, rfl, width.symm, consistent⟩
    | succ k =>
      obtain ⟨flag₁, step, -⟩ := consistent.forwardWords_eq codec width.symm flag
      have chained' : Chained (first.exactForward codec words).length layers := by simpa
      obtain ⟨flag₂, behind, length, consistent'⟩ := ih chained' flag₁ at_k
      rw [rowBehind_cons step]
      exact ⟨flag₂, behind, length, consistent'⟩

/-- Where accumulators hold all partial sums of a row and no quotient overflows, every layer stores
    what the quotients and biases say. -/
theorem exists_stores (chained : Chained words.length layers)
    (fits : RowFits codec layers ⟨words, false⟩) (quotients_fit : ¬ RowOverflows codec layers words)
    (at_k : layers[k]? = some q) :
    ∃ row sums, accumulatedBehind codec layers k ⟨words, false⟩ = .ok row ∧
      q.accumulatedSums row.words = .ok sums ∧
      ∀ o < q.outputs, ∃ word, (q.preactivation codec sums)[o]? = some word ∧
        q.Stores codec row.words o word := by
  obtain ⟨flag, behind, length, consistent⟩ := exists_rowBehind_exact codec chained false at_k
  have held := fits k q _ at_k behind
  refine ⟨_, _, (accumulatedBehind_eq chained fits k).trans behind,
    (consistent.accumulatedSums_eq length held).trans (consistent.wordSums_eq length), ?_⟩
  intro o below
  have at_o : (List.range q.outputs)[o]? = some o := List.getElem?_range below
  rw [consistent.preactivation_eq, List.getElem?_map, at_o]
  refine ⟨_, rfl, ?_⟩
  have quotient_fits : ¬ q.Overflows codec (exactRow codec (layers.take k) words) :=
    fun overflows => quotients_fit ⟨k, q, at_k, overflows⟩
  rw [Layer.Overflows] at quotient_fits
  push Not at quotient_fits
  obtain ⟨low, high⟩ := quotient_fits o below
  exact Layer.stores_of_quotient_fits low high

/-- In a pass whose accumulators hold all partial sums and that reports no wrapping, every layer
    stores for every row and output the floor of the quotient plus the bias, unless that total is no
    word: then, and only then, adding the bias has wrapped. Rows and sums are those of accumulators,
    and the pass with accumulators is the one with exact sums. -/
theorem stores_of_unreported {given : Nat} {literals : List (Layer Parameter)}
    {n : Network Parameter} (accepted : ofLayers given literals = .ok n) (codec : Codec)
    {m : FixedPointModel} (made : (ofNetwork codec n).outcome = .ok m) {input : Tensor}
    (whole : input.Whole) (columns : input.columns = n.inputs) (fits : m.FitsAccumulators input) :
    m.inferAccumulated input = m.infer input ∧
      (Event.wrapped codec.fractionBits ∉ (m.inferAccumulated input).events →
        ∀ r < input.rows, ∃ words, input.row r = .ok words ∧
          ∀ k q, m.network.layers[k]? = some q → ∃ row sums,
            accumulatedBehind codec m.network.layers k ⟨words, false⟩ = .ok row ∧
            q.accumulatedSums row.words = .ok sums ∧
            ∀ o < q.outputs, ∃ word, (q.preactivation codec sums)[o]? = some word ∧
              q.Stores codec row.words o word) := by
  obtain ⟨rfl, network⟩ : m.codec = codec ∧ m.network = n.map fun p => codec.quantize p.real := by
    obtain rfl := Except.ok.inj made
    exact ⟨rfl, rfl⟩
  have wellFormed : m.network.WellFormed := by
    rw [network]
    exact (wellFormed_of_ofLayers_eq_ok accepted).map _
  have columns' : input.columns = m.network.inputs := by rw [columns, network, Network.map]
  have same : m.inferAccumulated input = m.infer input :=
    inferAccumulated_eq wellFormed whole columns' fits
  refine ⟨same, fun unreported r below => ?_⟩
  obtain ⟨output, events, ran, computes, reports⟩ := infer_eq wellFormed whole columns'
  have quotients_fit : ¬ m.Overflows input := by
    rcases reports with ⟨-, rfl⟩ | ⟨fit, -⟩
    · rw [same, ran] at unreported
      exact absurd (List.mem_singleton_self _) unreported
    · exact fit
  obtain ⟨words, read, -⟩ := computes.row r below
  have width : words.length = m.network.inputs := by
    rw [← columns']
    exact whole.length_row (whole.mem_rowList_iff.mpr ⟨r, below, read⟩)
  refine ⟨words, read, ?_⟩
  intro k q at_k
  have chained : Chained words.length m.network.layers := by
    rw [width]
    exact wellFormed.chained
  exact exists_stores chained (fits r below words read)
    (fun overflows => quotients_fit ⟨r, below, words, read, overflows⟩) at_k

/-- One feature, one hidden neuron and one output. All weights and the neuron's bias are one. -/
def carrying : Network Parameter :=
  ⟨1, [⟨1, 1, [⟨0x3F800000⟩], [⟨0x3F800000⟩], .relu⟩,
    ⟨1, 1, [⟨0x3F800000⟩], [⟨0x00000000⟩], .sigmoid⟩]⟩

/-- The greatest word, in a tensor of its own. -/
def greatest : Tensor :=
  ⟨1, 1, [0x7fffffffffffffff]⟩

/-- The greatest word goes through the product unharmed and wraps when the bias is added. -/
theorem stores_of_unreported_carrying :
    ofLayers carrying.inputs carrying.layers = .ok carrying ∧ greatest.Whole ∧
      ∃ m : FixedPointModel, (ofNetwork Codec.default carrying).outcome = .ok m ∧
        m.FitsAccumulators greatest ∧
        Event.wrapped Codec.default.fractionBits ∉ (m.inferAccumulated greatest).events ∧
        ∃ (q : Layer Int64) (sums : List Int) (word : Int64), m.network.layers[0]? = some q ∧
          q.accumulatedSums [0x7fffffffffffffff] = .ok sums ∧
          (q.preactivation Codec.default sums)[0]? = some word ∧
          q.Stores Codec.default [0x7fffffffffffffff] 0 word := by
  have accepted : ofLayers carrying.inputs carrying.layers = .ok carrying := rfl
  have whole : greatest.Whole := by
    unfold Tensor.Whole
    decide
  let m : FixedPointModel :=
    ⟨Codec.default, ⟨1, [⟨1, 1, [65536], [65536], .relu⟩, ⟨1, 1, [65536], [0], .sigmoid⟩]⟩⟩
  have quantized : (carrying.map fun p => Codec.default.quantize p.real) = m.network := by
    decide +kernel
  have made : (ofNetwork Codec.default carrying).outcome = .ok m :=
    congrArg (fun network => Except.ok (FixedPointModel.mk Codec.default network)) quantized
  have light : ∀ q ∈ m.network.layers, ∀ w ∈ q.weights, w.toInt.natAbs ≤ 2 ^ 16 := by
    have unit : ∀ w ∈ [(65536 : Int64)], w.toInt.natAbs ≤ 2 ^ 16 :=
      List.forall_mem_singleton.mpr (by decide)
    exact List.forall_mem_cons.mpr ⟨unit, List.forall_mem_singleton.mpr unit⟩
  have few : ∀ q ∈ m.network.layers, q.inputs * 2 ^ 16 < 2 ^ 64 := by decide
  have fits : m.FitsAccumulators greatest := fitsAccumulators_of_light light few greatest
  have silent : (m.inferAccumulated greatest).events.isEmpty = true := by decide +kernel
  have unreported :
      Event.wrapped Codec.default.fractionBits ∉ (m.inferAccumulated greatest).events := by
    rw [List.isEmpty_iff.mp silent]
    exact List.not_mem_nil
  obtain ⟨-, stored⟩ := stores_of_unreported accepted Codec.default made whole rfl fits
  obtain ⟨words, read, each⟩ := stored unreported 0 Nat.one_pos
  obtain rfl := Except.ok.inj read
  obtain ⟨row, sums, behind, summed, stores⟩ := each 0 _ rfl
  obtain rfl := Except.ok.inj behind
  obtain ⟨word, at_0, stored⟩ := stores 0 Nat.one_pos
  exact ⟨accepted, whole, m, made, fits, unreported, _, sums, word, rfl, summed, at_0, stored⟩

/-- A pass can wrap and report nothing: neither quantizing the network nor running it says a word,
    and the hidden neuron has stored its total less the number of words. -/
theorem unreported_wrap :
    ofLayers carrying.inputs carrying.layers = .ok carrying ∧
      ∃ (m : FixedPointModel) (q : Layer Int64) (sums : List Int) (word : Int64),
        (ofNetwork Codec.default carrying).outcome = .ok m ∧
        (ofNetwork Codec.default carrying).events = [] ∧
        (m.infer greatest).outcome.toBool = true ∧ (m.infer greatest).events = [] ∧
        m.network.layers[0]? = some q ∧ q.wordSums [0x7fffffffffffffff] = .ok sums ∧
        q.preactivation Codec.default sums = [word] ∧
        q.exactTotal Codec.default [0x7fffffffffffffff] 0 = 2 ^ 63 - 1 + 2 ^ 16 ∧
        word.toInt = - 2 ^ 63 - 1 + 2 ^ 16 := by
  let m : FixedPointModel := ⟨Codec.default, carrying.map fun p => Codec.default.quantize p.real⟩
  have quantized : (ofNetwork Codec.default carrying).events.isEmpty = true := by decide +kernel
  have ok : (m.infer greatest).outcome.toBool = true := by decide +kernel
  have silent : (m.infer greatest).events.isEmpty = true := by decide +kernel
  refine ⟨rfl, m, _, _, _, rfl, List.isEmpty_iff.mp quantized, ok, List.isEmpty_iff.mp silent, rfl,
    rfl, rfl, ?_, ?_⟩
  · rw [Layer.exactTotal, Layer.exactQuotient, Codec.floor_div_eq]
    decide +kernel
  · decide +kernel

/-- Four features and one output. A weight of `-2 ^ 47` is stored as the least word. -/
def heavy : Network Parameter :=
  ⟨4, [⟨4, 1, List.replicate 4 ⟨0xD7000000⟩, [⟨0x00000000⟩], .sigmoid⟩]⟩

/-- The least word, once for each feature of `heavy`. -/
def leastWords : List Int64 :=
  List.replicate 4 (-0x8000000000000000)

/-- Accumulators that do not hold a partial sum can end at zero and report nothing, where the exact
    total fits no word. -/
theorem unreported_accumulator :
    ofLayers heavy.inputs heavy.layers = .ok heavy ∧
      ∃ (m : FixedPointModel) (q : Layer Int64),
        (ofNetwork Codec.default heavy).outcome = .ok m ∧ m.network.layers = [q] ∧
        q.exactTotal Codec.default leastWords 0 = 2 ^ 112 ∧
        (m.infer ⟨1, 4, leastWords⟩).events ≠ [] ∧
        q.accumulatedSums leastWords = .ok [0] ∧ q.preactivation Codec.default [0] = [0] ∧
        (m.inferAccumulated ⟨1, 4, leastWords⟩).events = [] := by
  let q : Layer Int64 := ⟨4, 1, leastWords, [0], .sigmoid⟩
  let m : FixedPointModel := ⟨Codec.default, ⟨4, [q]⟩⟩
  have quantized : (heavy.map fun p => Codec.default.quantize p.real) = m.network := by
    decide +kernel
  have made : (ofNetwork Codec.default heavy).outcome = .ok m :=
    congrArg (fun network => Except.ok (FixedPointModel.mk Codec.default network)) quantized
  have reported : (m.infer ⟨1, 4, leastWords⟩).events.isEmpty = false := by decide +kernel
  have silent : (m.inferAccumulated ⟨1, 4, leastWords⟩).events.isEmpty = true := by decide +kernel
  refine ⟨rfl, m, q, made, rfl, ?_, List.isEmpty_eq_false_iff.mp reported, by decide +kernel,
    by decide +kernel, List.isEmpty_iff.mp silent⟩
  rw [Layer.exactTotal, Layer.exactQuotient, Codec.floor_div_eq]
  decide +kernel

end FixedPointModel

end FixedPointNet
