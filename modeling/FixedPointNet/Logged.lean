import FixedPointNet.Event

/-!
# Logged computations

`Logged α` is a computation that ends with a value of `α` or a failure and has reported a list of
events on the way, oldest first. A failure ends the computation and keeps the events reported before
it.
-/

namespace FixedPointNet

/-- A computation's outcome together with the events it reported, oldest first. -/
structure Logged (α : Type) where
  outcome : Except Failure α
  events : List Event

namespace Logged

/-- A computation that reports nothing. -/
def ofExcept {α : Type} (outcome : Except Failure α) : Logged α :=
  ⟨outcome, []⟩

/-- A computation that fails at once. -/
def fail {α : Type} (failure : Failure) : Logged α :=
  ⟨.error failure, []⟩

/-- Reports one event. -/
def report (event : Event) : Logged Unit :=
  ⟨.ok (), [event]⟩

/-- Runs a computation and then what follows its value; a failure ends it. -/
def andThen {α β : Type} (first : Logged α) (next : α → Logged β) : Logged β :=
  match first.outcome with
  | .error failure => ⟨.error failure, first.events⟩
  | .ok value => ⟨(next value).outcome, first.events ++ (next value).events⟩

instance : Monad Logged where
  pure value := ⟨.ok value, []⟩
  bind := andThen

instance : MonadLift (Except Failure) Logged where
  monadLift := ofExcept

/-- Two logged computations are equal when their outcomes and events are. -/
@[ext] theorem ext {α : Type} {x y : Logged α} (outcome : x.outcome = y.outcome)
    (events : x.events = y.events) : x = y := by
  cases x; cases y; simp_all

@[simp] theorem outcome_pure {α : Type} (value : α) :
    (pure value : Logged α).outcome = .ok value := rfl

@[simp] theorem events_pure {α : Type} (value : α) : (pure value : Logged α).events = [] := rfl

/-- What follows a value runs after it, and its events come later. -/
theorem bind_of_ok {α β : Type} {first : Logged α} {value : α} (next : α → Logged β)
    (ok : first.outcome = .ok value) :
    first >>= next = ⟨(next value).outcome, first.events ++ (next value).events⟩ := by
  simp [bind, andThen, ok]

/-- A failure ends a computation and keeps its events. -/
theorem bind_of_error {α β : Type} {first : Logged α} {failure : Failure} (next : α → Logged β)
    (error : first.outcome = .error failure) :
    first >>= next = ⟨.error failure, first.events⟩ := by
  simp [bind, andThen, error]

/-- A computation succeeds as a whole when both of its parts do. -/
theorem outcome_bind_eq_ok_iff {α β : Type} {first : Logged α} {next : α → Logged β} {value : β} :
    (first >>= next).outcome = .ok value ↔
      ∃ a, first.outcome = .ok a ∧ (next a).outcome = .ok value := by
  cases outcome : first.outcome with
  | error failure => simp [bind_of_error next outcome]
  | ok a => simp [bind_of_ok next outcome]

/-- A computation fails as a whole when one of its parts does. -/
theorem outcome_bind_eq_error_iff {α β : Type} {first : Logged α} {next : α → Logged β}
    {failure : Failure} : (first >>= next).outcome = .error failure ↔
      first.outcome = .error failure ∨
        ∃ a, first.outcome = .ok a ∧ (next a).outcome = .error failure := by
  cases outcome : first.outcome with
  | error cause => simp [bind_of_error next outcome]
  | ok a => simp [bind_of_ok next outcome]

/-- An event is reported by the first part, or by the second if the first has a value. -/
theorem mem_events_bind_iff {α β : Type} {first : Logged α} {next : α → Logged β} {event : Event} :
    event ∈ (first >>= next).events ↔
      event ∈ first.events ∨ ∃ a, first.outcome = .ok a ∧ event ∈ (next a).events := by
  cases outcome : first.outcome with
  | error cause => simp [bind_of_error next outcome]
  | ok a => simp [bind_of_ok next outcome]

@[simp] theorem outcome_report_bind {α : Type} (event : Event) (next : Unit → Logged α) :
    (report event >>= next).outcome = (next ()).outcome := rfl

@[simp] theorem outcome_report (event : Event) : (report event).outcome = .ok () := rfl

@[simp] theorem mem_events_report_iff {reported event : Event} :
    event ∈ (report reported).events ↔ event = reported :=
  List.mem_singleton

@[simp] theorem events_liftM {α : Type} (outcome : Except Failure α) :
    (liftM outcome : Logged α).events = [] := rfl

@[simp] theorem outcome_liftM {α : Type} (outcome : Except Failure α) :
    (liftM outcome : Logged α).outcome = outcome := rfl

instance : LawfulMonad Logged := LawfulMonad.mk' Logged
  (by
    rintro α ⟨outcome, events⟩
    cases outcome <;> simp [Functor.map, andThen])
  (by
    intro α β value next
    ext <;> simp [bind, pure, andThen])
  (by
    rintro α β γ ⟨outcome, events⟩ next last
    cases outcome with
    | error failure => simp [bind, andThen]
    | ok value =>
        simp only [bind, andThen]
        cases (next value).outcome <;> simp)

end Logged

end FixedPointNet
