import FixedPointNet.Cost.Estimate
import Mathlib.Data.List.Forall2
import Mathlib.Order.MinMax

/-!
# Cost and widths

Narrower layers cost no more units of any kind. Between two networks with the same input width, one
at least as narrow as the other everywhere, even the adders or the registers alone tell whether they
have the same widths: a narrower layer takes fewer of both, and no other layer takes more.
-/

namespace FixedPointNet.Cost

instance : LE Cost :=
  ⟨fun a b => a.multipliers ≤ b.multipliers ∧ a.adders ≤ b.adders ∧ a.registers ≤ b.registers⟩

@[simp] theorem multipliers_add (a b : Cost) :
    (a + b).multipliers = a.multipliers + b.multipliers := rfl

@[simp] theorem adders_add (a b : Cost) : (a + b).adders = a.adders + b.adders := rfl

@[simp] theorem registers_add (a b : Cost) : (a + b).registers = a.registers + b.registers := rfl

theorem add_le_add {a b c d : Cost} (first : a ≤ b) (second : c ≤ d) : a + c ≤ b + d :=
  ⟨Nat.add_le_add first.1 second.1, Nat.add_le_add first.2.1 second.2.1,
    Nat.add_le_add first.2.2 second.2.2⟩

variable {inputs inputs' outputs outputs' : Nat} {narrow wide : List Nat}

theorem ofLayer_le_ofLayer (inputs_le : inputs ≤ inputs') (outputs_le : outputs ≤ outputs') :
    ofLayer inputs outputs ≤ ofLayer inputs' outputs' := by
  have products : inputs * outputs ≤ inputs' * outputs' := Nat.mul_le_mul inputs_le outputs_le
  have sums := Nat.add_le_add products outputs_le
  exact ⟨products, sums, sums⟩

theorem ofLayers_le_ofLayers (narrower : List.Forall₂ (· ≤ ·) narrow wide)
    (inputs_le : inputs ≤ inputs') :
    ofLayers (inputs :: narrow) ≤ ofLayers (inputs' :: wide) := by
  induction narrower generalizing inputs inputs' with
  | nil => exact ⟨Nat.le_refl _, Nat.le_refl _, Nat.le_refl _⟩
  | cons outputs_le _ ih =>
    exact add_le_add (ofLayer_le_ofLayer inputs_le outputs_le) (ih outputs_le)

/-- Apart from the shared buffer there is a register for every adder. -/
theorem registers_ofLayers (widths : List Nat) :
    (ofLayers widths).registers = (ofLayers widths).adders := by
  fun_induction ofLayers widths with
  | case1 inputs outputs rest ih => simp [ih, ofLayer]
  | case2 => rfl

theorem foldl_max_le_foldl_max (narrower : List.Forall₂ (· ≤ ·) narrow wide) {a b : Nat}
    (le : a ≤ b) : narrow.foldl max a ≤ wide.foldl max b := by
  induction narrower generalizing a b with
  | nil => exact le
  | cons head_le _ ih => exact ih (max_le_max le head_le)

/-- Narrower layers take no more units of any kind. -/
theorem ofWidths_le_ofWidths (narrower : List.Forall₂ (· ≤ ·) narrow wide)
    (inputs_le : inputs ≤ inputs') :
    ofWidths (inputs :: narrow) ≤ ofWidths (inputs' :: wide) := by
  have layers := ofLayers_le_ofLayers narrower inputs_le
  have buffers := foldl_max_le_foldl_max narrower (Nat.le_refl 0)
  exact ⟨layers.1, layers.2.1, Nat.add_le_add layers.2.2 buffers⟩

/-- Narrower layers that take as many adders have the same widths. -/
theorem eq_of_adders_le (narrower : List.Forall₂ (· ≤ ·) narrow wide)
    (adders : (ofLayers (inputs :: wide)).adders ≤ (ofLayers (inputs :: narrow)).adders) :
    narrow = wide := by
  induction narrower generalizing inputs with
  | nil => rfl
  | @cons outputs outputs' narrow wide outputs_le narrower ih =>
    have rest := (ofLayers_le_ofLayers narrower outputs_le).2.1
    have layer : outputs' * (inputs + 1) ≤ outputs * (inputs + 1) := by
      simp only [ofLayers, adders_add, ofLayer] at adders
      grind
    obtain rfl : outputs = outputs' :=
      Nat.le_antisymm outputs_le (Nat.le_of_mul_le_mul_right layer inputs.succ_pos)
    have rest' : (ofLayers (outputs :: wide)).adders ≤ (ofLayers (outputs :: narrow)).adders := by
      simp only [ofLayers, adders_add] at adders
      omega
    rw [ih rest']

/-- Narrower layers that take as many registers take as many adders: the shared buffer does not make
    up for a layer, since it does not grow either. -/
theorem adders_le_of_registers_le (narrower : List.Forall₂ (· ≤ ·) narrow wide)
    (registers : (ofWidths (inputs :: wide)).registers ≤ (ofWidths (inputs :: narrow)).registers) :
    (ofWidths (inputs :: wide)).adders ≤ (ofWidths (inputs :: narrow)).adders := by
  have buffers := foldl_max_le_foldl_max narrower (Nat.le_refl 0)
  simp only [ofWidths, registers_ofLayers, List.tail_cons] at registers ⊢
  omega

end FixedPointNet.Cost
