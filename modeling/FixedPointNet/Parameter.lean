import FixedPointNet.Binary32

/-!
# Parameters

A trained parameter is kept as the 32-bit word in which it is stored, so that copying a network
never changes a bit of it. Arithmetic reads the word as a single-precision number.
-/

namespace FixedPointNet

/-- A weight or a bias, as its stored word. -/
structure Parameter where
  bits : UInt32
deriving DecidableEq

namespace Parameter

/-- The number that the stored word stands for. -/
def value (p : Parameter) : Float32 :=
  .ofBits p.bits

/-- The number that the stored word stands for, in double precision. -/
def real (p : Parameter) : Float :=
  Binary32.widen p.value

/-- The word that stores a number. -/
def ofFloat32 (x : Float32) : Parameter :=
  ⟨x.toBits⟩

end Parameter

end FixedPointNet
