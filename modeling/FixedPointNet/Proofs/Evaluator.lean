import FixedPointNet.Evaluator

/-!
# What an evaluation refuses and reports

The fixed-point evaluator computes: it refuses nothing but shapes that do not fit, and reports
nothing but values that were pinned or wrapped. Both properties pass from the parts of a computation
to the whole.
-/

namespace FixedPointNet

/-- Events that arithmetic reports. -/
def Event.isArithmetic : Event → Bool
  | .saturated _ _ _ | .wrapped _ => true
  | _ => false

namespace Logged

variable {α β : Type}

/-- A computation that refuses only shapes that do not fit and reports only arithmetic. -/
structure Arithmetic (x : Logged α) : Prop where
  refusal : ∀ {cause}, x.outcome = .error (.error cause) →
    ∃ expected got, cause = .shapeMismatch expected got
  report : ∀ event ∈ x.events, event.isArithmetic = true

theorem Arithmetic.pure (value : α) : Arithmetic (Pure.pure value) :=
  ⟨nofun, nofun⟩

theorem Arithmetic.bind {first : Logged α} {next : α → Logged β}
    (first_arithmetic : first.Arithmetic) (next_arithmetic : ∀ a, (next a).Arithmetic) :
    (first >>= next).Arithmetic where
  refusal failed := by
    rcases outcome_bind_eq_error_iff.mp failed with failed | ⟨a, -, failed⟩
    · exact first_arithmetic.refusal failed
    · exact (next_arithmetic a).refusal failed
  report event member := by
    rcases mem_events_bind_iff.mp member with member | ⟨a, -, member⟩
    · exact first_arithmetic.report event member
    · exact (next_arithmetic a).report event member

theorem Arithmetic.fail_shapeMismatch (expected got : List Nat) (next : α → Logged β) :
    (fail (.error (.shapeMismatch expected got)) >>= next).Arithmetic := by
  rw [bind_of_error next rfl]
  exact ⟨by rintro _ ⟨⟩; exact ⟨_, _, rfl⟩, nofun⟩

theorem Arithmetic.fail_fault (fault : Fault) (next : α → Logged β) :
    (fail (.fault fault) >>= next).Arithmetic := by
  rw [bind_of_error next rfl]
  exact ⟨nofun, nofun⟩

theorem Arithmetic.liftM_fault (outcome : Except Fault α) :
    Arithmetic (liftM outcome : Logged α) := by
  cases outcome <;> exact ⟨nofun, nofun⟩

theorem Arithmetic.report_wrapped (bits : Nat) : Arithmetic (Logged.report (.wrapped bits)) :=
  ⟨nofun, by simp [Logged.report, Event.isArithmetic]⟩

end Logged

open Logged (Arithmetic)

theorem Codec.isArithmetic_saturation (codec : Codec) (xs : List Float) :
    ∀ event ∈ codec.saturation xs, event.isArithmetic = true := by
  intro event member
  simp only [Codec.saturation] at member
  split at member
  · obtain rfl := List.mem_singleton.mp member
    rfl
  · cases member

namespace FixedPointModel

theorem arithmetic_ofNetwork (codec : Codec) (n : Network Parameter) :
    (ofNetwork codec n).Arithmetic where
  refusal := nofun
  report event member := by
    obtain ⟨l, -, member⟩ := List.mem_flatMap.mp member
    rcases List.mem_append.mp member with member | member
    all_goals exact codec.isArithmetic_saturation _ event member

theorem arithmetic_infer (m : FixedPointModel) (input : Tensor) : (m.infer input).Arithmetic := by
  unfold infer inferBy
  split
  · exact .fail_shapeMismatch _ _ _
  refine .bind (.liftM_fault _) fun _ => .bind (.liftM_fault _) fun rows => ?_
  split
  · exact .bind (.report_wrapped _) fun _ => .pure _
  · exact .pure _

theorem arithmetic_predict (m : FixedPointModel) (features : List Float32) :
    (m.predict features).Arithmetic := by
  unfold predict
  simp only
  split
  · exact .fail_fault _ _
  split
  · exact .fail_shapeMismatch _ _ _
  have quantized (xs : List Float) : (m.codec.quantizeAll xs).Arithmetic :=
    ⟨nofun, m.codec.isArithmetic_saturation xs⟩
  refine .bind (quantized _) fun _ => .bind (m.arithmetic_infer _) fun _ => ?_
  split
  · exact .pure _
  · exact .pure _

end FixedPointModel

theorem Evaluator.arithmetic_fixedPoint (codec : Codec) (n : Network Parameter) (data : Dataset) :
    (fixedPoint codec n data).Arithmetic := by
  have checked : (liftM (checkWidth n data : Except Failure Unit) : Logged Unit).Arithmetic := by
    unfold checkWidth
    split
    · exact ⟨by rintro _ ⟨⟩; exact ⟨_, _, rfl⟩, nofun⟩
    · exact ⟨nofun, nofun⟩
  refine .bind checked fun _ => .bind (FixedPointModel.arithmetic_ofNetwork codec n) fun m => ?_
  exact .bind (m.arithmetic_predict _) fun _ => .pure _

end FixedPointNet
