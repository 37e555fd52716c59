import FixedPointNet.Generator

/-!
# A seeded stream of words

A stream of 32-bit words from a 64-bit seed: a stream cipher with a 256-bit key, a 64-bit block
counter and twelve rounds, of which every block is sixteen words. The key is drawn from the seed by
a congruential generator whose output is permuted by a rotation. `Keystream.generator` draws numbers
from the words of the stream, one after the other.
-/

namespace FixedPointNet.Keystream

/-- The words of one block of the cipher. -/
abbrev Block := Vector UInt32 16

/-- A word rotated to the left. -/
def rotateLeft (x : UInt32) (n : UInt32) : UInt32 :=
  (x <<< n) ||| (x >>> (32 - n))

/-- Mixes four words of a block. -/
def quarterRound (b : Block) (i j k l : Fin 16) : Block :=
  let b := b.set i (b[i] + b[j])
  let b := b.set l (rotateLeft (b[l] ^^^ b[i]) 16)
  let b := b.set k (b[k] + b[l])
  let b := b.set j (rotateLeft (b[j] ^^^ b[k]) 12)
  let b := b.set i (b[i] + b[j])
  let b := b.set l (rotateLeft (b[l] ^^^ b[i]) 8)
  let b := b.set k (b[k] + b[l])
  b.set j (rotateLeft (b[j] ^^^ b[k]) 7)

/-- Two rounds: the columns of the block as a square, then its diagonals. -/
def doubleRound (b : Block) : Block :=
  let b := quarterRound b 0 4 8 12
  let b := quarterRound b 1 5 9 13
  let b := quarterRound b 2 6 10 14
  let b := quarterRound b 3 7 11 15
  let b := quarterRound b 0 5 10 15
  let b := quarterRound b 1 6 11 12
  let b := quarterRound b 2 7 8 13
  quarterRound b 3 4 9 14

/-- One step of the generator that draws the key. -/
def keyStep (state : UInt64) : UInt64 :=
  state * 6364136223846793005 + 11634580027462260723

/-- The key word that a state of the generator gives: its middle bits, rotated by its highest
    bits. -/
def keyWord (state : UInt64) : UInt32 :=
  let mixed := (((state >>> 18) ^^^ state) >>> 27).toUInt32
  let turn := (state >>> 59).toUInt32
  (mixed >>> turn) ||| (mixed <<< ((32 - turn) % 32))

/-- The state of the key generator after the given number of steps. -/
def keyState (seed : UInt64) : Nat → UInt64
  | 0 => seed
  | n + 1 => keyStep (keyState seed n)

/-- The input of the cipher for one block: four constants, eight key words, the counter, two
    zeros. -/
def initialBlock (seed : UInt64) (counter : Nat) : Block :=
  let key (n : Nat) := keyWord (keyState seed (n + 1))
  let counter := UInt64.ofNat counter
  #v[0x61707865, 0x3320646e, 0x79622d32, 0x6b206574,
    key 0, key 1, key 2, key 3, key 4, key 5, key 6, key 7,
    counter.toUInt32, (counter >>> 32).toUInt32, 0, 0]

/-- The output of the cipher for one block. -/
def block (seed : UInt64) (counter : Nat) : Block :=
  let start := initialBlock seed counter
  (Nat.repeat doubleRound 6 start).zipWith (· + ·) start

/-- The word at a position of the stream. -/
def word (seed : UInt64) (position : Nat) : UInt32 :=
  (block seed (position / 16)).get ⟨position % 16, Nat.mod_lt _ (by decide)⟩

/-- A place in the stream of a seed. -/
structure Place where
  seed : UInt64
  position : Nat

/-- A number in `[0, 1)` with 23 random bits. -/
def unit (word : UInt32) : Float32 :=
  Float32.ofBits ((word >>> 9) ||| 0x3f800000) - 1

/-- A number in `[low, high)`. Rounding can lift a draw to `high`; it is then repeated, up to the
    given number of times. -/
def uniform (low high : Float32) : (repeats : Nat) → Place → Float32 × Place
  | 0, place => (low, place)
  | repeats + 1, place =>
      let x := unit (word place.seed place.position) * (high - low) + low
      let next := { place with position := place.position + 1 }
      if x < high then (x, next) else uniform low high repeats next

/-- The generator of the stream. Only the largest fractions can be lifted to the upper end of a
    range, so that a second draw is rare. The limit on repeats makes every draw end. -/
def generator : Generator where
  State := Place
  start seed := ⟨seed, 0⟩
  uniform low high := uniform low high 1000

end FixedPointNet.Keystream
