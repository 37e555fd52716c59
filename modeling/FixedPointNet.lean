import FixedPointNet.Cost.Primitive
import FixedPointNet.Keystream
import FixedPointNet.Network.Edit
import FixedPointNet.Summary
import FixedPointNet.Proofs.Entries
import FixedPointNet.Proofs.Layer.Rows
import FixedPointNet.Proofs.Layer.Restriction
import FixedPointNet.Proofs.Network.Accepted
import FixedPointNet.Proofs.Pruning.Ranking
import FixedPointNet.Proofs.Layer.Columns
import FixedPointNet.Proofs.Pruning.Importance
import FixedPointNet.Proofs.Pruning.Chain
import FixedPointNet.Proofs.Pruning.Stages
import FixedPointNet.Proofs.IntegerEngine.Exact
import FixedPointNet.Proofs.Layer.Masked
import FixedPointNet.Proofs.Pruning.Masking
import FixedPointNet.Proofs.IntegerEngine.Masking
import FixedPointNet.Proofs.FloatEngine.Sums
import FixedPointNet.Proofs.FloatEngine.Masking
import FixedPointNet.Proofs.Network.Bytes
import FixedPointNet.Proofs.Rounding.Machine
import FixedPointNet.Proofs.Rounding.Packing
import FixedPointNet.Proofs.Rounding.Level
import FixedPointNet.Proofs.Rounding.Arithmetic
import FixedPointNet.Proofs.Binary64
import FixedPointNet.Proofs.Binary64.Maximum
import FixedPointNet.Proofs.Binary32
import FixedPointNet.Proofs.IntegerEngine.Accuracy
import FixedPointNet.Proofs.Selection
import FixedPointNet.Proofs.Cost
import FixedPointNet.Proofs.Binary64.Error
import FixedPointNet.Proofs.Binary64.Monotone
import FixedPointNet.Proofs.Settings
import FixedPointNet.Proofs.Settings.Grid
import FixedPointNet.Proofs.Pruning.Counts
import FixedPointNet.Proofs.Evaluator
import FixedPointNet.Proofs.Sweep.Run
import FixedPointNet.Proofs.Sweep.Deployed
import FixedPointNet.Proofs.Sweep.Usable
import FixedPointNet.Proofs.Sweep.Deadline
import FixedPointNet.Proofs.IntegerEngine.Wrapping
import FixedPointNet.Proofs.Network.Edits
import FixedPointNet.Proofs.Selection.Best
import FixedPointNet.Proofs.FloatEngine.Batch
import FixedPointNet.Proofs.Classification
import FixedPointNet.Proofs.IntegerEngine.Predict
import FixedPointNet.Proofs.Binary64.Exact
import FixedPointNet.Proofs.Evaluator.Samples
import FixedPointNet.Proofs.Exponential.Nearest
import FixedPointNet.Proofs.Exponential.Table
import FixedPointNet.Proofs.Exponential.Monotone
import FixedPointNet.Proofs.Exponential.Grid
import FixedPointNet.Proofs.Exponential.Series
import FixedPointNet.Proofs.Exponential.Accuracy
import FixedPointNet.Proofs.Network.Evaluation
import FixedPointNet.Proofs.Classification.Greatest
import FixedPointNet.Proofs.IntegerEngine.Decision
import FixedPointNet.Proofs.Binary64.Sums
import FixedPointNet.Proofs.Exponential.Softmax
import FixedPointNet.Proofs.Exponential.Order
import FixedPointNet.Proofs.IntegerEngine.Distribution
import FixedPointNet.Proofs.IntegerEngine.Heads
import FixedPointNet.Proofs.Selection.Tolerance
import FixedPointNet.Proofs.Selection.Shares
import FixedPointNet.Proofs.Network.Sizes
import FixedPointNet.Proofs.Pruning.Sizes
import FixedPointNet.Proofs.Pruning.Ratios
import FixedPointNet.Proofs.Rounding.Integers
import FixedPointNet.Proofs.Codec.Saturation
import FixedPointNet.Proofs.Codec.Requantization
import FixedPointNet.Proofs.Binary64.Millionths
import FixedPointNet.Proofs.Settings.Decimal
import FixedPointNet.Proofs.Pruning.Decimal
import FixedPointNet.Proofs.Pruning.Refusals
import FixedPointNet.Proofs.Pruning.Survivors
import FixedPointNet.Proofs.Network.Figures
import FixedPointNet.Proofs.FloatEngine.Buffer
import FixedPointNet.Proofs.Layer.Laws
import FixedPointNet.Proofs.Classification.Units
import FixedPointNet.Proofs.IntegerEngine.Accumulator
