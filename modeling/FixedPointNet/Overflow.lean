import FixedPointNet.Failure

/-!
# Counts as machine words

Widths are machine words, and a product or a sum of two of them may be none. What happens then
depends on how the program is built: a build that checks its arithmetic stops, any other goes on with
the remainder modulo the number of words. Whatever multiplies or adds widths takes this as a
parameter. Where the result is a word, all builds agree.
-/

namespace FixedPointNet

/-- What a build does with a count that no machine word holds. -/
inductive Overflow where
  /-- It stops. -/
  | stops
  /-- It goes on with the remainder modulo the number of words. -/
  | wraps
deriving DecidableEq

/-- The number of machine words: counts are below it. -/
def countLimit : Nat := 0x10000000000000000

namespace Overflow

/-- The machine word for a count. -/
def narrow : Overflow → Nat → Except Fault Nat
  | stops, count => if count < countLimit then .ok count else .error .overflow
  | wraps, count => .ok (count % countLimit)

variable {overflow : Overflow} {count word : Nat}

theorem narrow_of_lt (overflow : Overflow) (fits : count < countLimit) :
    overflow.narrow count = .ok count := by
  cases overflow with
  | stops => rw [narrow, if_pos fits]
  | wraps => rw [narrow, Nat.mod_eq_of_lt fits]

theorem narrow_stops_eq_ok_iff :
    stops.narrow count = .ok word ↔ count < countLimit ∧ word = count := by
  by_cases fits : count < countLimit
  · simp [narrow, fits, eq_comm]
  · simp [narrow, fits]

/-- A word is a remainder, whatever the build does. -/
theorem eq_mod_of_narrow (narrowed : overflow.narrow count = .ok word) :
    word = count % countLimit := by
  cases overflow with
  | stops =>
    obtain ⟨fits, rfl⟩ := narrow_stops_eq_ok_iff.mp narrowed
    rw [Nat.mod_eq_of_lt fits]
  | wraps => exact (Except.ok.inj narrowed).symm

/-- A word is the count it stands for exactly where that is a word. -/
theorem eq_iff_lt_of_narrow (narrowed : overflow.narrow count = .ok word) :
    word = count ↔ count < countLimit := by
  rw [eq_mod_of_narrow narrowed]
  exact Nat.mod_eq_iff_lt (by decide)

end Overflow

end FixedPointNet
