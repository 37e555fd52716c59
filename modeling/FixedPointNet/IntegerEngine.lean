import FixedPointNet.Codec
import FixedPointNet.Exponential.Table
import FixedPointNet.Layer.Sums
import FixedPointNet.Network.Basic
import FixedPointNet.Parameter
import FixedPointNet.Tensor

/-!
# The integer engine

A network runs on integer hardware with all its numbers stored by one codec. In each layer the
products of words are summed exactly, every sum is rescaled to a word, the bias is added modulo the
size of a word, and the activation follows: rectification on the words themselves, the other
activations through the table exponential on the real numbers they stand for. When a rescaled sum
did not fit a word, the pass reports once that values wrapped.

Integer hardware sums in accumulators of 128 bits, and what they cannot hold wraps.
`FixedPointModel.infer` is the pass with exact sums, `FixedPointModel.inferAccumulated` the one with
accumulators. The two agree while every sum on the way fits.

A prediction quantizes real features, runs the words through the network and returns real numbers.
The rows of a head with several units are divided by their sums.
-/

namespace FixedPointNet

/-- Applies an activation to the words of a row. -/
def Activation.applyWords (codec : Codec) : Activation → List Int64 → List Int64
  | .relu, row => row.map fun q => max q 0
  | .sigmoid, row => row.map fun q => codec.quantize (Exponential.sigmoid (codec.dequantize q))
  | .softmax, row => (Exponential.softmax (row.map codec.dequantize)).map codec.quantize

/-- A row of words, and whether a sum on the way to it overflowed. -/
structure WordRow where
  words : List Int64
  overflowed : Bool
deriving DecidableEq

/-- The number of integers that an accumulator can hold, which has 128 bits. -/
def accumulatorSize : Nat := 0x100000000000000000000000000000000

namespace Layer

/-- The exact sums of products of a row of words, one per output. -/
def wordSums (l : Layer Int64) (words : List Int64) : Except Fault (List Int) :=
  l.sums (· == 0) (fun sum x w => sum + x.toInt * w.toInt) (List.replicate l.outputs 0) words

/-- The sums as accumulators hold them: every addition is taken modulo their size. -/
def accumulatedSums (l : Layer Int64) (words : List Int64) : Except Fault (List Int) :=
  l.sums (· == 0) (fun sum x w => (sum + x.toInt * w.toInt).bmod accumulatorSize)
    (List.replicate l.outputs 0) words

/-- The words to which the activation is applied: each sum rescaled, plus its bias modulo the size
    of a word. -/
def preactivation (codec : Codec) (l : Layer Int64) (sums : List Int) : List Int64 :=
  (sums.map codec.rescale).zipWith (· + ·) l.bias

/-- The row that a layer makes of its sums, behind rows of which one may have overflowed. -/
def rowOfSums (codec : Codec) (l : Layer Int64) (overflowed : Bool) (sums : List Int) : WordRow :=
  ⟨l.activation.applyWords codec (l.preactivation codec sums),
    overflowed || sums.any codec.overflows⟩

/-- One row of words through the layer. -/
def forwardWords (codec : Codec) (l : Layer Int64) (row : WordRow) : Except Fault WordRow := do
  let sums ← l.wordSums row.words
  return l.rowOfSums codec row.overflowed sums

/-- One row of words through the layer, summed in accumulators. -/
def forwardAccumulated (codec : Codec) (l : Layer Int64) (row : WordRow) :
    Except Fault WordRow := do
  let sums ← l.accumulatedSums row.words
  return l.rowOfSums codec row.overflowed sums

end Layer

/-- A network stored in fixed point. -/
structure FixedPointModel where
  codec : Codec
  network : Network Int64
deriving DecidableEq

namespace FixedPointModel

/-- What quantizing a layer reports: the saturated weights, then the saturated biases. -/
def layerSaturation (codec : Codec) (l : Layer Parameter) : List Event :=
  codec.saturation (l.weights.map Parameter.real) ++
    codec.saturation (l.bias.map Parameter.real)

/-- The model of a network: every parameter is quantized. Each weight matrix and each bias list with
    values out of range reports them. -/
def ofNetwork (codec : Codec) (n : Network Parameter) : Logged FixedPointModel :=
  ⟨.ok ⟨codec, n.map fun p => codec.quantize p.real⟩, n.layers.flatMap (layerSaturation codec)⟩

/-- Width of the head. -/
def outputs (m : FixedPointModel) : Nat :=
  m.network.outputs

/-- One row of words through all layers. -/
def inferRow (m : FixedPointModel) (words : List Int64) : Except Fault WordRow :=
  m.network.layers.foldlM (fun row l => l.forwardWords m.codec row) ⟨words, false⟩

/-- One row of words through all layers, summed in accumulators. -/
def accumulateRow (m : FixedPointModel) (words : List Int64) : Except Fault WordRow :=
  m.network.layers.foldlM (fun row l => l.forwardAccumulated m.codec row) ⟨words, false⟩

/-- A tensor of quantized samples, row by row in the given way. Its columns must be the network's
    inputs. -/
def inferBy (m : FixedPointModel) (through : List Int64 → Except Fault WordRow) (input : Tensor) :
    Logged Tensor := do
  if input.columns ≠ m.network.inputs then
    Logged.fail <|
      .error (.shapeMismatch [input.rows, m.network.inputs] [input.rows, input.columns])
  let inputRows ← ((List.range input.rows).mapM input.row : Except Fault _)
  let rows ← (inputRows.mapM through : Except Fault _)
  if rows.any WordRow.overflowed then
    Logged.report (.wrapped m.codec.fractionBits)
  return ⟨input.rows, m.outputs, (rows.map WordRow.words).flatten⟩

/-- A tensor of quantized samples through all layers. -/
def infer (m : FixedPointModel) (input : Tensor) : Logged Tensor :=
  m.inferBy m.inferRow input

/-- A tensor of quantized samples through all layers, summed in accumulators. -/
def inferAccumulated (m : FixedPointModel) (input : Tensor) : Logged Tensor :=
  m.inferBy m.accumulateRow input

/-- Divides a row by its sum, unless that is zero. -/
def normalizeRow (row : List Float) : List Float :=
  let total := row.foldl (· + ·) 0
  if total == 0 then row else row.map (· / total)

/-- Predictions from real features, row after row; the number of features must be a multiple of the
    input width. A head with one unit gives one probability per sample, any other head rows that are
    divided by their sums. -/
def predict (m : FixedPointModel) (features : List Float32) : Logged (List Float) := do
  let width := m.network.inputs
  if width = 0 then Logged.fail (.fault .zeroWidth)
  let samples := features.length / width
  if features.length % width ≠ 0 then
    Logged.fail <| .error (.shapeMismatch [samples * width] [features.length])
  let words ← m.codec.quantizeAll (features.map Binary32.widen)
  let output ← m.infer ⟨samples, width, words⟩
  let real := output.data.map m.codec.dequantize
  if 1 < output.columns then
    return ((pieces output.columns samples real).map normalizeRow).flatten
  else
    return real

end FixedPointModel

end FixedPointNet
