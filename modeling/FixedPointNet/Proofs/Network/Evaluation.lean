import FixedPointNet.Proofs.IntegerEngine.Predict
import FixedPointNet.Proofs.Network.Edits

/-!
# How an evaluation can end

Layers or stored bytes that pass the checks may still announce a network without inputs. Such a
network counts its samples by a remainder of zero, and both engines break off there. Any other
accepted network takes features of every length: complete samples give the numbers of the head, and
other features are refused.
-/

namespace FixedPointNet

/-- How a run over a batch ends, for samples of `inputs` features and a head of `outputs` units. -/
structure BatchEnd {α : Type} (inputs outputs : Nat) (features : List Float32)
    (outcome : Except Failure (List α)) : Prop where
  /-- Without inputs there is no remainder to take. -/
  fault : inputs = 0 → outcome = .error (.fault .zeroWidth)
  /-- Features that are no complete samples are refused. -/
  refusal : inputs ≠ 0 → features.length % inputs ≠ 0 → outcome =
    .error (.error (.shapeMismatch [features.length / inputs * inputs] [features.length]))
  /-- Complete samples give the numbers of the head. -/
  success : inputs ≠ 0 → features.length % inputs = 0 →
    ∃ numbers, outcome = .ok numbers ∧ numbers.length = features.length / inputs * outputs

theorem Network.WellFormed.batchEnd_forwardBatch {n : Network Parameter}
    (wellFormed : n.WellFormed) (features : List Float32) :
    BatchEnd n.inputs n.outputs features (n.forwardBatch features) where
  fault none := forwardBatch_of_inputs_eq_zero none features
  refusal wide ragged := forwardBatch_of_ragged wide ragged
  success wide whole := by
    obtain ⟨rows, run, each⟩ := wellFormed.forwardBatch_eq wide whole
    have widths := forall_mem_of_forall₂ each fun _ _ alone => alone.2
    have count : rows.length = features.length / n.inputs := by
      rw [← each.length_eq, length_samplesOf]
    exact ⟨rows.flatten, run, by rw [length_flatten_of_widths widths, count]⟩

theorem FixedPointModel.batchEnd_predict {m : FixedPointModel}
    (wellFormed : m.network.WellFormed) (features : List Float32) :
    BatchEnd m.network.inputs m.outputs features (m.predict features).outcome where
  fault none := by
    rw [predict_of_inputs_eq_zero none]
    rfl
  refusal wide ragged := by
    rw [predict_of_ragged wide ragged]
    rfl
  success wide whole := by
    refine ⟨_, predict_eq wellFormed wide whole, ?_⟩
    rw [length_flatten_of_widths (length_of_mem_scores wellFormed whole), List.length_map,
      length_samplesOf]

namespace Network

variable {n : Network Parameter} {features : List Float32}

theorem wellFormed_of_accepted
    (accepted : (∃ inputs layers, ofLayers inputs layers = .ok n) ∨
      ∃ bytes, ofBytes bytes = .ok n) : n.WellFormed := by
  rcases accepted with ⟨inputs, layers, ok⟩ | ⟨bytes, ok⟩
  · exact wellFormed_of_ofLayers_eq_ok ok
  · exact wellFormed_of_ofBytes_eq_ok ok

/-- Both engines take features of every length for every accepted network that has inputs, and break
    off for one that has none. -/
theorem batchEnd_of_accepted
    (accepted : (∃ inputs layers, ofLayers inputs layers = .ok n) ∨
      ∃ bytes, ofBytes bytes = .ok n) (codec : Codec) (features : List Float32) :
    BatchEnd n.inputs n.outputs features (n.forwardBatch features) ∧
      ∃ m, (FixedPointModel.ofNetwork codec n).outcome = .ok m ∧
        BatchEnd n.inputs n.outputs features (m.predict features).outcome := by
  have wellFormed : n.WellFormed := wellFormed_of_accepted accepted
  have stored_wellFormed := FixedPointModel.wellFormed_stored wellFormed codec
  refine ⟨wellFormed.batchEnd_forwardBatch features, _,
    FixedPointModel.outcome_ofNetwork codec n, ?_⟩
  rw [← FixedPointModel.outputs_stored codec n]
  exact FixedPointModel.batchEnd_predict stored_wellFormed features

theorem batchEnd_of_accepted_small :
    ofLayers small.inputs small.layers = .ok small ∧
      small.forwardBatch [1, 2, 3] = .error (.error (.shapeMismatch [2] [3])) ∧
      ∃ scores, small.forwardBatch [1, 2, 3, 4] = .ok scores ∧ scores.length = 2 := by
  have accepted : ofLayers small.inputs small.layers = .ok small := rfl
  have ends := fun features =>
    (batchEnd_of_accepted (.inl ⟨_, _, accepted⟩) .default features).1
  exact ⟨accepted, (ends [1, 2, 3]).refusal (by decide) (by decide),
    (ends [1, 2, 3, 4]).success (by decide) (by decide)⟩

/-- A head of one unit on top of nothing. -/
def rootless : Network Parameter :=
  ⟨0, [⟨0, 1, [], [⟨0x00000000⟩], .sigmoid⟩]⟩

/-- An accepted network without inputs breaks both engines. -/
theorem rootless_faults :
    ofLayers rootless.inputs rootless.layers = .ok rootless ∧
      rootless.forwardBatch [1] = .error (.fault .zeroWidth) ∧
      ∃ m, (FixedPointModel.ofNetwork .default rootless).outcome = .ok m ∧
        (m.predict [1]).outcome = .error (.fault .zeroWidth) :=
  ⟨rfl, rfl, _, rfl, rfl⟩

end Network

end FixedPointNet
