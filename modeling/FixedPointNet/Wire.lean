/-!
# Byte formats

A `Wire α` writes values of `α` as bytes and reads them back from the front of a list of bytes,
returning what is left. Numbers are little-endian with a fixed number of bytes, and a list is its
length in eight bytes followed by its items.
-/

namespace FixedPointNet

/-- A way to write values as bytes and to read them back. -/
structure Wire (α : Type) where
  write : α → List UInt8
  read : List UInt8 → Option (α × List UInt8)

namespace Wire

variable {α β : Type}

/-- The lowest bytes of a number, least significant first. -/
def writeNat : (count : Nat) → Nat → List UInt8
  | 0, _ => []
  | count + 1, n => UInt8.ofNat (n % 256) :: writeNat count (n / 256)

/-- The number of the given count of bytes, least significant first. -/
def readNat : (count : Nat) → List UInt8 → Option (Nat × List UInt8)
  | 0, bytes => some (0, bytes)
  | _ + 1, [] => none
  | count + 1, byte :: bytes => do
      let (high, rest) ← readNat count bytes
      return (byte.toNat + 256 * high, rest)

/-- Numbers of a fixed count of bytes. -/
def nat (count : Nat) : Wire Nat :=
  ⟨writeNat count, readNat count⟩

/-- Reads the given number of items. -/
def readItems (item : Wire α) : Nat → List UInt8 → Option (List α × List UInt8)
  | 0, bytes => some ([], bytes)
  | count + 1, bytes => do
      let (x, rest) ← item.read bytes
      let (xs, rest) ← readItems item count rest
      return (x :: xs, rest)

/-- Lists, with their length in front. -/
def list (item : Wire α) : Wire (List α) where
  write xs := writeNat 8 xs.length ++ xs.flatMap item.write
  read bytes := do
    let (count, rest) ← readNat 8 bytes
    readItems item count rest

/-- Values that are stored as values of another type; some of those may stand for none. -/
def via (item : Wire α) (store : β → α) (restore? : α → Option β) : Wire β where
  write x := item.write (store x)
  read bytes := do
    let (stored, rest) ← item.read bytes
    let x ← restore? stored
    return (x, rest)

/-- Two values, one after the other. -/
def pair (first : Wire α) (second : Wire β) : Wire (α × β) where
  write x := first.write x.1 ++ second.write x.2
  read bytes := do
    let (x, rest) ← first.read bytes
    let (y, rest) ← second.read rest
    return ((x, y), rest)

end Wire

end FixedPointNet
