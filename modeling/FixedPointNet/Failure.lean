import FixedPointNet.Decimal.Shortest

/-!
# What can go wrong

An `Error` is a refusal that a caller can expect and read: shapes that do not fit, settings out of
range, an empty evaluation set. A `Fault` is a broken precondition: an index past the end, a
division by a width of zero. `Failure` is either of them, for operations that can end both ways.
Each error is kept as its cause; `Error.message` holds the wording.
-/

namespace FixedPointNet

/-- Settings that a sweep cannot run with. -/
inductive SettingsError where
  | fractionBits (bits : Nat)
  | tolerance (value : Float)
  | pruneStep (value : Float)
  | pruneGrid (start stop : Float)

/-- Refusals with a cause that the caller can read. -/
inductive Error where
  /-- The settings of a sweep are out of range. -/
  | settings (cause : SettingsError)
  /-- Two shapes that must agree do not. -/
  | shapeMismatch (expected got : List Nat)
  /-- A removal list does not have one entry per hidden layer. -/
  | hiddenLayerMismatch (expected got : Nat)
  /-- The network has no hidden layer, or no layer at all. -/
  | tooFewLayers (count : Nat)
  /-- A removal would leave a hidden layer without neurons. -/
  | invalidRemoval (layer remove width : Nat)
  /-- The evaluation set has no samples. -/
  | emptyDataset
  /-- There is not one label per sample. -/
  | labelCountMismatch (labels samples : Nat)
  /-- No candidate reaches the accuracy threshold. -/
  | noQualifyingCandidate (best threshold : Float)
  /-- There is no candidate to choose from. -/
  | emptySweep
  /-- Bytes that are no stored network. -/
  | malformedBytes

/-- Preconditions that a caller broke. -/
inductive Fault where
  /-- An index or a range reaches past the end of the data. -/
  | outOfRange
  /-- Two lists that must have the same length do not. -/
  | lengthMismatch
  /-- Samples of width zero cannot be counted. -/
  | zeroWidth
  /-- A fixed-point format with so many fractional bits has no room in a word. -/
  | fractionTooWide (bits : Nat)
  /-- A count that no machine word holds. -/
  | overflow
deriving DecidableEq

/-- The two ways in which an operation can fail. -/
inductive Failure where
  | error (cause : Error)
  | fault (cause : Fault)

instance : MonadLift (Except Error) (Except Failure) where
  monadLift := Except.mapError .error

instance : MonadLift (Except Fault) (Except Failure) where
  monadLift := Except.mapError .fault

theorem liftM_error_eq_ok_iff {α : Type} {outcome : Except Error α} {value : α} :
    (liftM outcome : Except Failure α) = .ok value ↔ outcome = .ok value := by
  cases outcome <;> constructor <;> rintro ⟨⟩ <;> rfl

theorem liftM_error_eq_error_iff {α : Type} {outcome : Except Error α} {failure : Failure} :
    (liftM outcome : Except Failure α) = .error failure ↔
      ∃ cause, outcome = .error cause ∧ failure = .error cause := by
  cases outcome with
  | error cause =>
    constructor
    · rintro ⟨⟩
      exact ⟨cause, rfl, rfl⟩
    · rintro ⟨_, ⟨⟩, rfl⟩
      rfl
  | ok value =>
    constructor
    · rintro ⟨⟩
    · rintro ⟨_, ⟨⟩, _⟩

theorem liftM_fault_eq_ok_iff {α : Type} {outcome : Except Fault α} {value : α} :
    (liftM outcome : Except Failure α) = .ok value ↔ outcome = .ok value := by
  cases outcome <;> constructor <;> rintro ⟨⟩ <;> rfl

/-- Two steps succeed together when the first one does, and the second one with its value. -/
theorem except_bind_eq_ok_iff {ε α β : Type} {first : Except ε α} {next : α → Except ε β}
    {value : β} : first >>= next = .ok value ↔ ∃ a, first = .ok a ∧ next a = .ok value := by
  cases first <;> simp [bind, Except.bind]

section Guards

variable {ε α γ : Type} {refused : Prop} [Decidable refused] {cause : ε} {next : Except ε α}
  {value : α}

/-- Behind a check that may throw, a computation succeeds when the check refuses nothing and the
    rest succeeds. -/
theorem ite_throw_eq_ok_iff :
    (if refused then throw cause else next) = .ok value ↔ ¬ refused ∧ next = .ok value := by
  by_cases held : refused <;> simp [held, throw, throwThe, MonadExceptOf.throw]

/-- The same check in front of further steps. -/
theorem ite_throw_bind_eq_ok_iff {after : γ → Except ε α} :
    (if refused then throw cause >>= after else next) = .ok value ↔
      ¬ refused ∧ next = .ok value :=
  ite_throw_eq_ok_iff

end Guards

/-- A list of widths as messages show it: `[16, 8]`. -/
def shapeText (shape : List Nat) : String :=
  "[" ++ ", ".intercalate (shape.map toString) ++ "]"

/-- The wording of a refused setting. -/
def SettingsError.message : SettingsError → String
  | .fractionBits bits => s!"Fractional bits must be 1-30, got {bits}"
  | .tolerance value => s!"Tolerance must be in [0, 1), got {Decimal.plain value}"
  | .pruneStep value => s!"Prune step must be > 0, got {Decimal.plain value}"
  | .pruneGrid start stop =>
      s!"Invalid prune grid [{Decimal.plain start}, {Decimal.plain stop}]: " ++
        "bounds must lie in [0, 1) with start <= stop"

/-- The wording of an error. -/
def Error.message : Error → String
  | .settings cause => s!"Configuration error: {cause.message}"
  | .shapeMismatch expected got =>
      s!"Shape mismatch: expected {shapeText expected}, got {shapeText got}"
  | .hiddenLayerMismatch expected got =>
      s!"Mismatch between hidden layers and removal list: expected {expected} entries, got {got}"
  | .tooFewLayers count =>
      "Network must include at least one hidden layer and an output layer, " ++
        s!"got {count} layer(s)"
  | .invalidRemoval layer remove width =>
      s!"Cannot remove {remove} neuron(s) from hidden layer {layer} of width {width}"
  | .emptyDataset => "Evaluation dataset is empty"
  | .labelCountMismatch labels samples =>
      s!"Label count {labels} does not match sample count {samples}"
  | .noQualifyingCandidate best threshold =>
      s!"No candidate reached accuracy threshold {Decimal.plain threshold} " ++
        s!"(best accuracy {Decimal.plain best})"
  | .emptySweep => "Sweep produced no candidates"
  | .malformedBytes => "Stored network is malformed"

end FixedPointNet
