import FixedPointNet.Evaluator
import FixedPointNet.Proofs.Classification
import FixedPointNet.Proofs.IntegerEngine.Predict

/-!
# Evaluators score sample by sample

Both evaluators run a whole batch and compare its classes with the labels. Each class is the one
that its sample is given alone, there is one class per label, and the accuracy is the share of
samples whose own class is their label. The order of the samples does not matter, as long as every
sample keeps its label.
-/

namespace FixedPointNet

namespace Dataset

/-- The rows of features. -/
def samples (data : Dataset) : List (List Float32) :=
  samplesOf data.width data.features

/-- Sample `i`, for which a class is decided alone, has that class as its label. -/
def Hit (data : Dataset) (decides : List Float32 → Nat → Prop) (i : Nat) : Prop :=
  ∃ sample label, data.samples[i]? = some sample ∧ data.labels[i]? = some label ∧
    decides sample label

open Classical in
/-- The number of samples that are hits. -/
noncomputable def hits (data : Dataset) (decides : List Float32 → Nat → Prop) : Nat :=
  (List.range data.labels.length).countP fun i => decide (data.Hit decides i)

/-- What holds of every accepted dataset. -/
structure Complete (data : Dataset) : Prop where
  width_ne_zero : data.width ≠ 0
  labels_ne_nil : data.labels ≠ []
  whole : data.features.length % data.width = 0
  one_label_each : data.samples.length = data.labels.length

variable {features : List Float32} {labels : List Nat} {width : Nat} {data others : Dataset}

theorem complete_of_ofRows_eq_ok (ok : ofRows features labels width = .ok data) :
    data.Complete := by
  unfold ofRows at ok
  split_ifs at ok with empty ragged mismatch
  obtain rfl := Except.ok.inj ok
  obtain ⟨wide, some_features⟩ := not_or.mp empty
  have whole : features.length % width = 0 := not_not.mp ragged
  have count : labels.length = features.length / width := not_not.mp mismatch
  have positive : 0 < features.length / width := by
    refine Nat.div_pos (Nat.le_of_dvd ?_ (Nat.dvd_of_mod_eq_zero whole)) (Nat.pos_of_ne_zero wide)
    exact List.length_pos_iff.mpr (by simpa using some_features)
  refine ⟨wide, ?_, whole, ?_⟩
  · exact List.length_pos_iff.mp (count ▸ positive)
  · rw [samples, length_samplesOf, count]

/-- The hits are counted by the pairs of a sample and its label. -/
theorem Complete.hits_eq (complete : data.Complete) (decides : List Float32 → Nat → Prop) :
    open Classical in data.hits decides =
      (data.samples.zip data.labels).countP fun (sample, label) => decide (decides sample label) :=
  Classification.countP_range_eq_countP_zip decides complete.one_label_each

/-- The same samples with the same labels have as many hits, in whatever order they come. -/
theorem Complete.hits_eq_of_perm (complete : data.Complete) (complete' : others.Complete)
    (same : (data.samples.zip data.labels).Perm (others.samples.zip others.labels))
    (decides : List Float32 → Nat → Prop) : data.hits decides = others.hits decides := by
  rw [complete.hits_eq, complete'.hits_eq]
  exact same.countP_eq _

theorem Complete.length_eq_of_perm (complete : data.Complete) (complete' : others.Complete)
    (same : (data.samples.zip data.labels).Perm (others.samples.zip others.labels)) :
    data.labels.length = others.labels.length := by
  have pairs := same.length_eq
  rwa [List.length_zip, List.length_zip, complete.one_label_each, complete'.one_label_each,
    Nat.min_self, Nat.min_self] at pairs

end Dataset

open Classification

/-- The network gives a sample a class when it runs it alone in single precision. -/
def Network.DecidesFor (n : Network Parameter) (sample : List Float32) (c : Nat) : Prop :=
  ∃ scores, n.forward sample = .ok scores ∧
    classes n.outputs (scores.map Binary32.widen) = [c]

/-- The model gives a sample a class when it predicts it alone. -/
def FixedPointModel.DecidesFor (m : FixedPointModel) (sample : List Float32) (c : Nat) : Prop :=
  ∃ scores, (m.predict sample).outcome = .ok scores ∧ classes m.outputs scores = [c]

namespace Evaluator

/-- An accuracy that comes from running every sample alone. -/
structure CountsSamples (decides : List Float32 → Nat → Prop) (data : Dataset)
    (predicted : List Nat) (outcome : Except Failure Float) : Prop where
  /-- One class is compared with each label. -/
  one_class_each : predicted.length = data.labels.length
  /-- It is the class that the sample is given alone. -/
  alone : List.Forall₂ decides data.samples predicted
  /-- The hits are divided by the number of samples. -/
  share : outcome = .ok (Binary64.ofNat (data.hits decides) / Binary64.ofNat data.samples.length)

variable {n : Network Parameter} {data : Dataset}

theorem countsSamples_of_forall₂ {decides : List Float32 → Nat → Prop} {predicted : List Nat}
    (complete : data.Complete)
    (functional : ∀ sample c c', decides sample c → decides sample c' → c = c')
    (alone : List.Forall₂ decides data.samples predicted) :
    CountsSamples decides data predicted (.ok (accuracy predicted data.labels)) where
  one_class_each := by rw [← alone.length_eq, complete.one_label_each]
  alone := alone
  share := by
    have labelled : ¬ data.labels.isEmpty = true := by simpa using complete.labels_ne_nil
    rw [accuracy, if_neg labelled, countP_zip_of_forall₂ alone functional, complete.hits_eq,
      complete.one_label_each]

theorem checkWidth_eq_ok (width : data.width = n.inputs) : checkWidth n data = .ok () := by
  rw [checkWidth, if_neg (not_not.mpr width.symm)]

theorem outcome_floating {scores : List Float32} (width : data.width = n.inputs)
    (run : n.forwardBatch data.features = .ok scores) : (floating n data).outcome =
      .ok (accuracy (classes n.outputs (scores.map Binary32.widen)) data.labels) := by
  unfold floating
  rw [checkWidth_eq_ok width, run]
  rfl

theorem outcome_fixedPoint {codec : Codec} {scores : List Float} (width : data.width = n.inputs)
    (run : ((FixedPointModel.stored codec n).predict data.features).outcome = .ok scores) :
    (fixedPoint codec n data).outcome = .ok (accuracy (classes n.outputs scores) data.labels) := by
  unfold fixedPoint
  rw [checkWidth_eq_ok width, Logged.bind_of_ok _ rfl,
    Logged.bind_of_ok _ (FixedPointModel.outcome_ofNetwork codec n), Logged.bind_of_ok _ run,
    FixedPointModel.outputs_stored]
  rfl

end Evaluator

/-- A batch is given the classes that its samples are given alone. -/
theorem Network.WellFormed.decidesFor {n : Network Parameter} {features : List Float32}
    (wellFormed : n.WellFormed) (wide : n.inputs ≠ 0) (head : 1 ≤ n.outputs)
    (whole : features.length % n.inputs = 0) :
    ∃ scores, n.forwardBatch features = .ok scores ∧
      List.Forall₂ n.DecidesFor (samplesOf n.inputs features)
        (classes n.outputs (scores.map Binary32.widen)) := by
  obtain ⟨rows, run, each⟩ := wellFormed.forwardBatch_eq wide whole
  have widths : ∀ row ∈ rows.map (List.map Binary32.widen), row.length = n.outputs := by
    intro row member
    obtain ⟨scores, scores_member, rfl⟩ := List.mem_map.mp member
    rw [List.length_map]
    exact forall_mem_of_forall₂ each (fun _ _ alone => alone.2) scores scores_member
  refine ⟨rows.flatten, run, ?_⟩
  rw [List.map_flatten, classes_flatten head widths, List.map_map, List.forall₂_map_right_iff]
  refine each.imp fun sample scores alone => ⟨scores, alone.1, ?_⟩
  exact classes_row head (by rw [List.length_map, alone.2])

/-- A batch is given the classes that its samples are predicted alone. -/
theorem FixedPointModel.decidesFor {m : FixedPointModel} {features : List Float32}
    (wellFormed : m.network.WellFormed) (wide : m.network.inputs ≠ 0) (head : 1 ≤ m.outputs)
    (whole : features.length % m.network.inputs = 0) :
    ∃ scores, (m.predict features).outcome = .ok scores ∧
      List.Forall₂ m.DecidesFor (samplesOf m.network.inputs features)
        (classes m.outputs scores) := by
  have widths := length_of_mem_scores wellFormed whole
  refine ⟨_, predict_eq wellFormed wide whole, ?_⟩
  rw [classes_flatten head widths, List.map_map, List.forall₂_map_right_iff, List.forall₂_same]
  intro sample member
  have width : sample.length = m.network.inputs := length_of_mem_samplesOf whole member
  refine ⟨m.scores (m.headWords sample), ?_, ?_⟩
  · exact predict_sample wellFormed wide width
  · exact classes_row head (widths _ (List.mem_map_of_mem member))

namespace Evaluator

variable {n : Network Parameter} {data others : Dataset}

/-- A floating evaluation of complete data counts the samples. -/
theorem countsSamples_floating (wellFormed : n.WellFormed) (head : 1 ≤ n.outputs)
    (complete : data.Complete) (width : data.width = n.inputs) :
    ∃ scores, n.forwardBatch data.features = .ok scores ∧
      CountsSamples n.DecidesFor data (classes n.outputs (scores.map Binary32.widen))
        (floating n data).outcome := by
  have wide : n.inputs ≠ 0 := width ▸ complete.width_ne_zero
  have whole : data.features.length % n.inputs = 0 := width ▸ complete.whole
  obtain ⟨scores, run, alone⟩ := wellFormed.decidesFor wide head whole
  rw [← width, ← Dataset.samples] at alone
  refine ⟨scores, run, ?_⟩
  rw [outcome_floating width run]
  exact countsSamples_of_forall₂ complete (fun _ _ _ => class_unique) alone

/-- A fixed-point evaluation of complete data counts the samples. -/
theorem countsSamples_fixedPoint (wellFormed : n.WellFormed) (head : 1 ≤ n.outputs)
    (complete : data.Complete) (width : data.width = n.inputs) (codec : Codec) :
    ∃ scores, ((FixedPointModel.stored codec n).predict data.features).outcome = .ok scores ∧
      CountsSamples (FixedPointModel.stored codec n).DecidesFor data (classes n.outputs scores)
        (fixedPoint codec n data).outcome := by
  have wide : n.inputs ≠ 0 := width ▸ complete.width_ne_zero
  have whole : data.features.length % n.inputs = 0 := width ▸ complete.whole
  obtain ⟨scores, run, alone⟩ :=
    FixedPointModel.decidesFor (FixedPointModel.wellFormed_stored wellFormed codec) wide
      (by rwa [FixedPointModel.outputs_stored]) whole
  rw [FixedPointModel.inputs_stored, ← width, ← Dataset.samples,
    FixedPointModel.outputs_stored] at alone
  refine ⟨scores, run, ?_⟩
  rw [outcome_fixedPoint width run]
  exact countsSamples_of_forall₂ complete (fun _ _ _ => class_unique) alone

/-- Two evaluations that count the same labelled samples end alike. -/
theorem CountsSamples.eq_of_perm {decides : List Float32 → Nat → Prop}
    {classes classes' : List Nat} {outcome outcome' : Except Failure Float}
    (counts : CountsSamples decides data classes outcome)
    (counts' : CountsSamples decides others classes' outcome') (complete : data.Complete)
    (complete' : others.Complete)
    (same : (data.samples.zip data.labels).Perm (others.samples.zip others.labels)) :
    outcome' = outcome := by
  rw [counts.share, counts'.share, complete.hits_eq_of_perm complete' same,
    complete.one_label_each, complete'.one_label_each, complete.length_eq_of_perm complete' same]

end Evaluator

end FixedPointNet
