import FixedPointNet.Binary64
import FixedPointNet.Logged

/-!
# The fixed-point codec

Every tensor of the integer engine shares one format: a real number `x` is stored as the 64-bit
integer `⌊x * 2 ^ B⌋`, where `B` is the number of fractional bits. Quantization always floors, so a
value that fits comes back at most `2 ^ (-B)` smaller. A value whose floor is outside the range of a
word is pinned to its limits, and what is not a number becomes zero; a batch that holds such values
reports how many.

A product of two words has `2 * B` fractional bits. Rescaling divides by `2 ^ B` towards the floor;
a result outside the range of a word wraps.
-/

namespace FixedPointNet

/-- The fixed-point format with a given number of fractional bits. -/
structure Codec where
  fractionBits : Nat
  /-- One and the sign have room beside the fraction. -/
  fractionBits_lt : fractionBits < 63
deriving DecidableEq

namespace Codec

/-- Number of fractional bits where none is asked for. -/
def defaultFractionBits : Nat := 16

/-- The default format. -/
def default : Codec :=
  ⟨defaultFractionBits, by decide⟩

instance : Inhabited Codec := ⟨default⟩

/-- The format with the given number of fractional bits. -/
def ofFractionBits (bits : Nat) : Except Fault Codec :=
  if h : bits < 63 then .ok ⟨bits, h⟩ else .error (.fractionTooWide bits)

/-- `2 ^ B` as a float. -/
def scale (c : Codec) : Float :=
  Binary64.ofNat (Nat.pow 2 c.fractionBits)

/-- The least integer that a word holds. -/
def minWord : Int := -0x8000000000000000

/-- The greatest integer that a word holds. -/
def maxWord : Int := 0x7fffffffffffffff

/-- Whether the floor of the scaled value is outside the range of a word, or there is none. -/
def saturates (c : Codec) (x : Float) : Bool :=
  match Binary64.floor? (x * c.scale) with
  | some n => n < minWord || maxWord < n
  | none => true

/-- The stored word of a real number. -/
def quantize (c : Codec) (x : Float) : Int64 :=
  Int64.ofInt (Binary64.floorClamp minWord maxWord (x * c.scale))

/-- The real number of a stored word. -/
def dequantize (c : Codec) (q : Int64) : Float :=
  Binary64.ofInt q.toInt / c.scale

/-- What a batch reports: the number of its values that saturate, if there are any. -/
def saturation (c : Codec) (xs : List Float) : List Event :=
  let saturated := xs.countP c.saturates
  if 0 < saturated then [.saturated saturated xs.length c.fractionBits] else []

/-- The stored words of a batch. -/
def quantizeAll (c : Codec) (xs : List Float) : Logged (List Int64) :=
  ⟨.ok (xs.map c.quantize), c.saturation xs⟩

/-- Whether a rescaled sum is outside the range of a word. -/
def overflows (c : Codec) (sum : Int) : Bool :=
  let scaled := sum / Nat.pow 2 c.fractionBits
  scaled < minWord || maxWord < scaled

/-- A sum of products brought back to `B` fractional bits, modulo the size of a word. -/
def rescale (c : Codec) (sum : Int) : Int64 :=
  Int64.ofInt (sum / Nat.pow 2 c.fractionBits)

/-- Rescales sums one after the other; beside each result stands whether this or an earlier sum
    overflowed. -/
def rescaleRun (c : Codec) : Bool → List Int → List (Int64 × Bool)
  | _, [] => []
  | overflowed, sum :: rest =>
      let overflowed := overflowed || c.overflows sum
      (c.rescale sum, overflowed) :: c.rescaleRun overflowed rest

end Codec

end FixedPointNet
