import FixedPointNet.FloatEngine

/-!
# Sums in place

The sums of a layer can be written into a buffer that the caller keeps for them. The biases are
copied over what the buffer holds. Then every input that is not zero adds its row of products to the
buffer: in chunks of eight with one vector instruction each, as far as full chunks reach, and the
rest one by one.

What the instructions compute is left to a `VectorUnit`. `VectorUnit.LaneWise` says of a unit that
its lanes do not meet and that it rounds after every operation.
-/

namespace FixedPointNet

/-- The entries of a buffer from a position on, as many as a register holds. They must lie inside
    the buffer. -/
def readLanes (buffer : List Float32) (base : Nat) : Except Fault (Vector Float32 8) :=
  if base + 8 ≤ buffer.length then .ok (Register.load (buffer.drop base)) else .error .outOfRange

/-- Copies a list over the entries of a buffer from a position on. They must lie inside the
    buffer. -/
def writeAt (buffer : List Float32) (base : Nat) (xs : List Float32) :
    Except Fault (List Float32) :=
  if base + xs.length ≤ buffer.length then
    .ok (buffer.take base ++ xs ++ buffer.drop (base + xs.length))
  else
    .error .outOfRange

/-- Adds the product of one weight with an input to one entry of a buffer. -/
def addSingle (x : Float32) (weights buffer : List Float32) (o : Nat) :
    Except Fault (List Float32) :=
  match buffer[o]?, weights[o]? with
  | some sum, some w => .ok (buffer.set o (sum + x * w))
  | _, _ => .error .outOfRange

/-- A unit that works on eight numbers at once. -/
structure VectorUnit where
  /-- What a register of the unit holds. -/
  Word : Type
  /-- The register with the given numbers in its lanes. -/
  ofLanes : Vector Float32 8 → Word
  /-- The numbers in the lanes of a register. -/
  lanes : Word → Vector Float32 8
  /-- The register with one number in every lane. -/
  splat : Float32 → Word
  mul : Word → Word → Word
  add : Word → Word → Word

namespace VectorUnit

/-- Every instruction works on each lane on its own: a product is rounded before it is added. -/
structure LaneWise (unit : VectorUnit) : Prop where
  lanes_ofLanes : ∀ numbers, unit.lanes (unit.ofLanes numbers) = numbers
  lanes_splat : ∀ x, unit.lanes (unit.splat x) = .replicate 8 x
  lanes_mul : ∀ a b, unit.lanes (unit.mul a b) = (unit.lanes a).zipWith (· * ·) (unit.lanes b)
  lanes_add : ∀ a b, unit.lanes (unit.add a b) = (unit.lanes a).zipWith (· + ·) (unit.lanes b)

/-- The unit that works on the registers of the floating engine. -/
def registers : VectorUnit where
  Word := Register
  ofLanes numbers := numbers
  lanes sums := sums
  splat := Register.splat
  mul := Vector.zipWith (· * ·)
  add := Vector.zipWith (· + ·)

/-- Adds the products of a chunk of weights with one input, which stands in every lane of `x`. -/
def addChunk (unit : VectorUnit) (x : unit.Word) (weights buffer : List Float32) (chunk : Nat) :
    Except Fault (List Float32) := do
  let factors ← readLanes weights (chunk * 8)
  let sums ← readLanes buffer (chunk * 8)
  let added := unit.add (unit.ofLanes sums) (unit.mul x (unit.ofLanes factors))
  writeAt buffer (chunk * 8) (unit.lanes added).toList

/-- Adds the products of an input with its row of weights. -/
def addRow (unit : VectorUnit) (width : Nat) (x : Float32) (weights buffer : List Float32) :
    Except Fault (List Float32) := do
  let chunks := width / 8
  let buffer ← (List.range chunks).foldlM (unit.addChunk (unit.splat x) weights) buffer
  (List.range' (chunks * 8) (width - chunks * 8)).foldlM (addSingle x weights) buffer

end VectorUnit

namespace Layer

/-- One input of a sample, with its position. An input that is zero is passed over. -/
def addInputInto (unit : VectorUnit) (l : Layer Parameter) (buffer : List Float32)
    (input : Float32 × Nat) : Except Fault (List Float32) :=
  if input.1 == 0 then .ok buffer
  else do
    let row ← l.row input.2
    unit.addRow l.outputs input.1 (row.map Parameter.value) buffer

/-- Writes the sums `x · W + b` of one sample into a buffer with one entry per output. -/
def affineInto (unit : VectorUnit) (l : Layer Parameter) (xs buffer : List Float32) :
    Except Fault (List Float32) :=
  if xs.length ≠ l.inputs ∨ buffer.length ≠ l.outputs ∨ l.bias.length ≠ buffer.length then
    .error .lengthMismatch
  else do
    let buffer ← writeAt buffer 0 (l.bias.map Parameter.value)
    xs.zipIdx.foldlM (addInputInto unit l) buffer

end Layer

end FixedPointNet
