import FixedPointNet.Network.Basic
import FixedPointNet.Parameter
import FixedPointNet.Proofs.Layer.Rows
import Mathlib.Tactic.SplitIfs

/-!
# Accepted networks

`Network.ofLayersOn` accepts exactly the layers that pass its check, and what it returns is accepted
again, without a change. In a build that stops where a product of widths is no machine word, the
accepted layers are those that chain and whose weights can be counted; what they make is well
formed. Where the weights can be counted, the other build decides alike.
-/

namespace FixedPointNet

theorem Layer.checkLengths_eq_ok_iff {α : Type} {overflow : Overflow} {l : Layer α} :
    l.checkLengths overflow = .ok () ↔
      overflow.narrow (l.inputs * l.outputs) = .ok l.weights.length ∧
        l.bias.length = l.outputs := by
  simp only [checkLengths, except_bind_eq_ok_iff, liftM_fault_eq_ok_iff, ite_throw_bind_eq_ok_iff,
    ite_throw_eq_ok_iff, not_not]
  constructor
  · rintro ⟨count, narrowed, rfl, bias, -⟩
    exact ⟨narrowed, bias⟩
  · rintro ⟨narrowed, bias⟩
    exact ⟨_, narrowed, rfl, bias, rfl⟩

theorem Layer.checkLengths_stops_eq_ok_iff {α : Type} {l : Layer α} :
    l.checkLengths .stops = .ok () ↔ l.Consistent ∧ l.inputs * l.outputs < countLimit := by
  rw [checkLengths_eq_ok_iff, Overflow.narrow_stops_eq_ok_iff]
  constructor
  · rintro ⟨⟨countable, weights⟩, bias⟩
    exact ⟨⟨weights, bias⟩, countable⟩
  · rintro ⟨⟨weights, bias⟩, countable⟩
    exact ⟨⟨countable, weights⟩, bias⟩

namespace Network

variable {α β : Type} {overflow : Overflow} {width : Nat} {l : Layer α} {layers : List (Layer α)}
  {n : Network α}

theorem checkChain_cons_eq_ok_iff : checkChain overflow width (l :: layers) = .ok () ↔
    l.inputs = width ∧ l.checkLengths overflow = .ok () ∧
      checkChain overflow l.outputs layers = .ok () := by
  simp only [checkChain, except_bind_eq_ok_iff, ite_throw_bind_eq_ok_iff, not_not]
  constructor
  · rintro ⟨inputs, ⟨⟩, lengths, rest⟩
    exact ⟨inputs, lengths, rest⟩
  · rintro ⟨inputs, lengths, rest⟩
    exact ⟨inputs, (), lengths, rest⟩

theorem checkChain_stops_eq_ok_iff : checkChain .stops width layers = .ok () ↔
    Chained width layers ∧ ∀ l ∈ layers, l.inputs * l.outputs < countLimit := by
  induction layers generalizing width with
  | nil => exact ⟨fun _ => ⟨.nil width, fun l absent => nomatch absent⟩, fun _ => rfl⟩
  | cons l rest ih =>
    rw [checkChain_cons_eq_ok_iff, Layer.checkLengths_stops_eq_ok_iff, ih, List.forall_mem_cons]
    constructor
    · rintro ⟨inputs, ⟨consistent, countable⟩, chained, countable_rest⟩
      exact ⟨.cons inputs consistent chained, countable, countable_rest⟩
    · rintro ⟨_ | ⟨inputs, consistent, chained⟩, countable, countable_rest⟩
      exact ⟨inputs, ⟨consistent, countable⟩, chained, countable_rest⟩

theorem Chained.consistent (chained : Chained width layers) : ∀ l ∈ layers, l.Consistent := by
  induction chained with
  | nil => exact fun l absent => nomatch absent
  | cons _ consistent _ ih => exact List.forall_mem_cons.mpr ⟨consistent, ih⟩

/-- The check does not look at activations. -/
theorem checkChain_assignActivations (overflow : Overflow) (width : Nat)
    (layers : List (Layer α)) :
    checkChain overflow width (assignActivations layers) = checkChain overflow width layers := by
  induction layers generalizing width with
  | nil => rfl
  | cons l rest ih =>
    simp only [assignActivations, checkChain, ih]
    rfl

/-- The activations of a list of layers are assigned once and for all. -/
theorem assignActivations_assignActivations (layers : List (Layer α)) :
    assignActivations (assignActivations layers) = assignActivations layers := by
  induction layers with
  | nil => rfl
  | cons l rest ih =>
    have last : (assignActivations rest).isEmpty = rest.isEmpty := by
      cases rest <;> rfl
    rw [assignActivations, assignActivations, ih, last]

/-- Layers are accepted when there is one and all of them pass the check. -/
theorem ofLayersOn_eq_ok_iff : ofLayersOn overflow width layers = .ok n ↔
    layers ≠ [] ∧ checkChain overflow width layers = .ok () ∧
      n = ⟨width, assignActivations layers⟩ := by
  simp only [ofLayersOn, except_bind_eq_ok_iff, ite_throw_bind_eq_ok_iff, List.isEmpty_iff, pure,
    Except.pure, Except.ok.injEq, ne_eq, eq_comm (b := n)]
  constructor
  · rintro ⟨nonempty, ⟨⟩, passed, made⟩
    exact ⟨nonempty, passed, made⟩
  · rintro ⟨nonempty, passed, made⟩
    exact ⟨nonempty, (), passed, made⟩

/-- What is accepted is accepted again, as it is. -/
theorem ofLayersOn_of_accepted (accepted : ofLayersOn overflow width layers = .ok n) :
    ofLayersOn overflow n.inputs n.layers = .ok n := by
  obtain ⟨nonempty, passed, rfl⟩ := ofLayersOn_eq_ok_iff.mp accepted
  rw [ofLayersOn_eq_ok_iff, checkChain_assignActivations, assignActivations_assignActivations]
  refine ⟨?_, passed, rfl⟩
  cases layers with
  | nil => exact absurd rfl nonempty
  | cons l rest => exact List.cons_ne_nil _ _

/-- Where every product of widths is a machine word, the check does not depend on the build. -/
theorem checkChain_eq_of_countable (countable : ∀ l ∈ layers, l.inputs * l.outputs < countLimit)
    (overflow : Overflow) (width : Nat) :
    checkChain overflow width layers = checkChain .stops width layers := by
  induction layers generalizing width with
  | nil => rfl
  | cons l rest ih =>
    obtain ⟨first, countable⟩ := List.forall_mem_cons.mp countable
    have lengths : l.checkLengths overflow = l.checkLengths .stops := by
      rw [Layer.checkLengths, Layer.checkLengths, Overflow.narrow_of_lt overflow first,
        Overflow.narrow_of_lt .stops first]
    rw [checkChain, checkChain, lengths, ih countable]

/-- Layers whose products of widths are machine words are accepted or refused alike in all builds. -/
theorem ofLayersOn_eq_of_countable (countable : ∀ l ∈ layers, l.inputs * l.outputs < countLimit)
    (overflow : Overflow) (width : Nat) :
    ofLayersOn overflow width layers = ofLayers width layers := by
  rw [ofLayers, ofLayersOn, ofLayersOn, checkChain_eq_of_countable countable]

theorem ofLayers_eq_ok_iff : ofLayers width layers = .ok n ↔
    layers ≠ [] ∧ Chained width layers ∧ (∀ l ∈ layers, l.inputs * l.outputs < countLimit) ∧
      n = ⟨width, assignActivations layers⟩ := by
  rw [ofLayers, ofLayersOn_eq_ok_iff, checkChain_stops_eq_ok_iff, and_assoc]

/-- What a build that stops accepts, any build accepts. -/
theorem ofLayersOn_of_ofLayers (accepted : ofLayers width layers = .ok n) (overflow : Overflow) :
    ofLayersOn overflow width layers = .ok n := by
  obtain ⟨-, -, countable, -⟩ := ofLayers_eq_ok_iff.mp accepted
  rwa [ofLayersOn_eq_of_countable countable]

theorem wellFormed_of_ofLayers_eq_ok (accepted : ofLayers width layers = .ok n) :
    n.WellFormed := by
  obtain ⟨nonempty, chained, countable, same⟩ :=
    ofLayers_eq_ok_iff.mp (ofLayersOn_of_accepted accepted)
  exact ⟨nonempty, chained, countable, (congrArg Network.layers same).symm⟩

/-- A well-formed network is accepted as it is. -/
theorem WellFormed.ofLayers_eq (wellFormed : n.WellFormed) :
    ofLayers n.inputs n.layers = .ok n := by
  rw [ofLayers_eq_ok_iff, wellFormed.activations]
  exact ⟨wellFormed.layers_ne_nil, wellFormed.chained, wellFormed.countable, rfl⟩

/-- Replacing parameters by their images keeps layers chained. -/
theorem Chained.map (chained : Chained width layers) (f : α → β) :
    Chained width (layers.map (Layer.map f)) := by
  induction chained with
  | nil width => exact .nil width
  | cons inputs consistent _ ih => exact .cons inputs (consistent.map f) ih

theorem assignActivations_map (f : α → β) (layers : List (Layer α)) :
    assignActivations (layers.map (Layer.map f)) =
      (assignActivations layers).map (Layer.map f) := by
  induction layers with
  | nil => rfl
  | cons l rest ih =>
    have last : (rest.map (Layer.map f)).isEmpty = rest.isEmpty := by
      cases rest <;> rfl
    rw [List.map_cons, assignActivations, assignActivations, ih, last]
    rfl

theorem WellFormed.map (wellFormed : n.WellFormed) (f : α → β) : (n.map f).WellFormed where
  layers_ne_nil := by simpa [Network.map] using wellFormed.layers_ne_nil
  chained := wellFormed.chained.map f
  countable := by
    intro l member
    obtain ⟨given, given_member, rfl⟩ := List.mem_map.mp member
    exact wellFormed.countable given given_member
  activations := by rw [Network.map, assignActivations_map, wellFormed.activations]

@[simp] theorem outputs_map (f : α → β) (n : Network α) : (n.map f).outputs = n.outputs := by
  rw [outputs, outputs, Network.map, List.getLast?_map]
  cases n.layers.getLast? <;> rfl

/-- A network of two features, three hidden neurons and one output. The first two neurons have
    weights of the same magnitudes, and a weight of the third is not a number. -/
def small : Network Parameter :=
  ⟨2, [⟨2, 3, [⟨0x3F800000⟩, ⟨0xBF800000⟩, ⟨0x40000000⟩, ⟨0xBF800000⟩, ⟨0x3F800000⟩, ⟨0x7FC00000⟩],
      [⟨0x00000000⟩, ⟨0x3F800000⟩, ⟨0x3F000000⟩], .relu⟩,
    ⟨3, 1, [⟨0x3F800000⟩, ⟨0x40000000⟩, ⟨0xBF800000⟩], [⟨0x3F000000⟩], .sigmoid⟩]⟩

theorem wellFormed_small : small.WellFormed :=
  wellFormed_of_ofLayers_eq_ok (rfl : ofLayers small.inputs small.layers = .ok small)

end Network

end FixedPointNet
