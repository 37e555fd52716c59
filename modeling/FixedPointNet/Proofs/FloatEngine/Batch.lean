import FixedPointNet.Proofs.FloatEngine.Masking

/-!
# Batches in single precision

A well-formed network runs every sample of its width, and a batch of complete samples gives the
scores of its samples one after the other. Features that are no complete samples are refused, and
without inputs there is nothing to count samples by.
-/

namespace FixedPointNet

open Network

/-- The samples of a batch, row after row, for a network with the given number of inputs. -/
def samplesOf (inputs : Nat) (features : List Float32) : List (List Float32) :=
  pieces inputs (features.length / inputs) features

variable {inputs : Nat} {features xs : List Float32}

/-- A batch of complete samples is as long as its samples together. -/
theorem length_eq_of_mod_eq_zero (whole : features.length % inputs = 0) :
    features.length = features.length / inputs * inputs :=
  (Nat.div_mul_cancel (Nat.dvd_of_mod_eq_zero whole)).symm

theorem length_of_mem_samplesOf (whole : features.length % inputs = 0)
    (member : xs ∈ samplesOf inputs features) : xs.length = inputs :=
  length_of_mem_pieces (length_eq_of_mod_eq_zero whole).ge member

@[simp] theorem length_samplesOf (inputs : Nat) (features : List Float32) :
    (samplesOf inputs features).length = features.length / inputs :=
  length_pieces _ _ _

/-- A sample is a batch of its own. -/
theorem samplesOf_self (wide : xs.length ≠ 0) : samplesOf xs.length xs = [xs] := by
  rw [samplesOf, Nat.div_self (Nat.pos_of_ne_zero wide), pieces, pieces, List.take_length]

theorem Layer.Consistent.exists_forward {l : Layer Parameter} (consistent : l.Consistent)
    (width : xs.length = l.inputs) : ∃ ys, l.forward xs = .ok ys ∧ ys.length = l.outputs := by
  have start : (l.bias.map Parameter.value).length = l.outputs := by
    rw [List.length_map, consistent.bias]
  have summed := consistent.sums_eq (· == 0) addProduct start xs
  rw [← consistent.affine_eq width] at summed
  refine ⟨_, by rw [Layer.forward, summed]; rfl, ?_⟩
  rw [Activation.length_applyFloat, List.length_mapIdx, start]

/-- The last layer of a chain decides how many numbers leave it. -/
theorem Network.Chained.exists_foldlM_forward {layers : List (Layer Parameter)}
    (chained : Chained xs.length layers) :
    ∃ ys, layers.foldlM (fun values l => l.forward values) xs = .ok ys ∧
      ys.length = (layers.getLast?.map Layer.outputs).getD xs.length := by
  induction layers generalizing xs with
  | nil => exact ⟨xs, rfl, rfl⟩
  | cons l layers ih =>
    obtain _ | ⟨width, consistent, chained⟩ := chained
    obtain ⟨ys, step, length⟩ := consistent.exists_forward width.symm
    obtain ⟨zs, run, length'⟩ := ih (length ▸ chained)
    refine ⟨zs, ?_, ?_⟩
    · rw [List.foldlM_cons, step]
      exact run
    · rw [length', length, List.getLast?_cons]
      cases layers.getLast? <;> rfl

namespace Network

variable {n : Network Parameter}

/-- The head gives the scores of a sample. -/
theorem WellFormed.exists_forward (wellFormed : n.WellFormed) (width : xs.length = n.inputs) :
    ∃ scores, n.forward xs = .ok scores ∧ scores.length = n.outputs := by
  have chained : Chained xs.length n.layers := width ▸ wellFormed.chained
  obtain ⟨scores, run, length⟩ := chained.exists_foldlM_forward
  refine ⟨scores, run, ?_⟩
  rw [length, Network.outputs]
  cases last : n.layers.getLast? with
  | none => exact absurd (List.getLast?_eq_none_iff.mp last) wellFormed.layers_ne_nil
  | some head => rfl

theorem forwardBatch_of_inputs_eq_zero (none : n.inputs = 0) (features : List Float32) :
    n.forwardBatch features = .error (.fault .zeroWidth) := by
  rw [forwardBatch, if_pos none]
  rfl

theorem forwardBatch_of_ragged (wide : n.inputs ≠ 0) (ragged : features.length % n.inputs ≠ 0) :
    n.forwardBatch features = .error (.error
      (.shapeMismatch [features.length / n.inputs * n.inputs] [features.length])) := by
  rw [forwardBatch, if_neg wide]
  simp only
  rw [if_pos ragged]
  rfl

/-- A batch gives the scores that its samples give alone, one row after the other. -/
theorem WellFormed.forwardBatch_eq (wellFormed : n.WellFormed) (wide : n.inputs ≠ 0)
    (whole : features.length % n.inputs = 0) :
    ∃ rows, n.forwardBatch features = .ok rows.flatten ∧
      List.Forall₂ (fun xs scores => n.forward xs = .ok scores ∧ scores.length = n.outputs)
        (samplesOf n.inputs features) rows := by
  have each : ∀ xs ∈ samplesOf n.inputs features, ∃ scores, n.forward xs = .ok scores ∧
      n.forward xs = .ok scores ∧ scores.length = n.outputs := by
    intro xs member
    obtain ⟨scores, run, length⟩ :=
      wellFormed.exists_forward (length_of_mem_samplesOf whole member)
    exact ⟨scores, run, run, length⟩
  obtain ⟨rows, run, all⟩ := exists_mapM_of_forall each
  refine ⟨rows, ?_, all⟩
  rw [forwardBatch, if_neg wide]
  simp only
  rw [if_neg (not_not.mpr whole), ← samplesOf, run]
  rfl

end Network

end FixedPointNet
