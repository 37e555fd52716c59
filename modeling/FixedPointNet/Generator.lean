import FixedPointNet.Parameter

/-!
# Generators of random numbers

Random networks are drawn with a generator that starts from a seed. Which one it is makes no
difference to what is proved of them, so it is a parameter wherever numbers are drawn.
-/

namespace FixedPointNet

/-- A generator of random numbers. -/
structure Generator where
  /-- What the generator keeps from one draw to the next. -/
  State : Type
  /-- The state that a seed starts from. -/
  start : UInt64 → State
  /-- A number in `[low, high)`, and the state behind the draw. -/
  uniform : (low high : Float32) → State → Float32 × State

namespace Generator

/-- The given number of parameters, uniform in `[low, high)`. -/
def parameters (generator : Generator) (low high : Float32) :
    (count : Nat) → generator.State → List Parameter × generator.State
  | 0, state => ([], state)
  | count + 1, state =>
      let (x, state) := generator.uniform low high state
      let (xs, state) := generator.parameters low high count state
      (.ofFloat32 x :: xs, state)

end Generator

end FixedPointNet
