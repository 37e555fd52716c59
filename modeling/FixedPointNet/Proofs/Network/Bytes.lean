import FixedPointNet.Network.Bytes
import FixedPointNet.Proofs.Network.Accepted
import FixedPointNet.Proofs.Wire

/-!
# Stored networks are read back

The stored form of a network is read back from the front of any bytes, and no shorter part of it is.
Bytes are accepted exactly when they begin with the stored form of layers that chain. What is
accepted differs from the stored layers in their activations only, so it is stored in as many bytes,
and the two stored forms differ at most in the tags.
-/

namespace FixedPointNet

/-- The widths of a layer and the lengths of its lists fit in eight bytes, as those of any layer in
    memory. -/
structure Layer.Storable {α : Type} (l : Layer α) : Prop where
  inputs : l.inputs < 256 ^ 8
  outputs : l.outputs < 256 ^ 8
  weights : l.weights.length < 256 ^ 8
  bias : l.bias.length < 256 ^ 8

/-- The numbers of a network fit in eight bytes. -/
structure Network.Storable {α : Type} (n : Network α) : Prop where
  inputs : n.inputs < 256 ^ 8
  count : n.layers.length < 256 ^ 8
  layers : ∀ l ∈ n.layers, l.Storable

theorem Parameter.lawful_wire : Parameter.wire.Lawful fun _ => True := by
  have stored : Parameter.wire.Lawful fun p => p.bits.toNat < 256 ^ 4 := by
    apply (Wire.lawful_nat 4).via
    rintro stored ⟨bits⟩ stored_lt
    rw [Option.some.injEq, Parameter.mk.injEq]
    constructor
    · rintro rfl
      exact (UInt32.toNat_ofNat_of_lt' stored_lt).symm
    · rintro rfl
      exact UInt32.ofNat_toNat
  exact stored.congr fun p => iff_true_intro p.bits.toNat_lt

theorem Activation.ofTag?_eq_some_iff (stored : Nat) (activation : Activation) :
    ofTag? stored = some activation ↔ stored = activation.tag := by
  constructor
  · intro restored
    unfold ofTag? at restored
    split at restored
    all_goals cases restored
    all_goals rfl
  · rintro rfl
    cases activation <;> rfl

theorem Activation.lawful_wire : Activation.wire.Lawful fun _ => True := by
  have stored : Activation.wire.Lawful fun activation => activation.tag < 256 ^ 4 :=
    (Wire.lawful_nat 4).via fun stored activation _ => ofTag?_eq_some_iff stored activation
  apply stored.congr
  intro activation
  cases activation <;> decide

theorem Layer.lawful_wire : Layer.wire.Lawful Layer.Storable := by
  have parts := (Wire.lawful_nat 8).pair <| (Wire.lawful_nat 8).pair <|
    Parameter.lawful_wire.list.pair <| Parameter.lawful_wire.list.pair Activation.lawful_wire
  refine (parts.via ?_).congr ?_
  · rintro ⟨inputs, outputs, weights, bias, activation⟩ ⟨⟩ -
    simp
  · intro l
    constructor
    · rintro ⟨inputs, outputs, ⟨weights, -⟩, ⟨bias, -⟩, -⟩
      exact ⟨inputs, outputs, weights, bias⟩
    · rintro ⟨inputs, outputs, weights, bias⟩
      exact ⟨inputs, outputs, ⟨weights, fun _ _ => trivial⟩, ⟨bias, fun _ _ => trivial⟩, trivial⟩

namespace Network

theorem lawful_wire : wire.Lawful Storable := by
  refine (((Wire.lawful_nat 8).pair Layer.lawful_wire.list).via ?_).congr ?_
  · rintro ⟨inputs, layers⟩ ⟨⟩ -
    simp
  · intro n
    constructor
    · rintro ⟨inputs, count, layers⟩
      exact ⟨inputs, count, layers⟩
    · rintro ⟨inputs, count, layers⟩
      exact ⟨inputs, count, layers⟩

variable {n m : Network Parameter} {bytes : List UInt8}

/-- Bytes are accepted exactly when they begin with the stored form of layers that are accepted. -/
theorem ofBytesOn_eq_ok_iff {overflow : Overflow} : ofBytesOn overflow bytes = .ok m ↔
    ∃ (record : Network Parameter) (extra : List UInt8), record.Storable ∧
      bytes = wire.write record ++ extra ∧
        ofLayersOn overflow record.inputs record.layers = .ok m := by
  constructor
  · intro accepted
    unfold ofBytesOn at accepted
    split at accepted
    · next record extra read =>
      obtain ⟨storable, rfl⟩ := lawful_wire.read_eq_some_iff.mp read
      exact ⟨record, extra, storable, rfl, accepted⟩
    · cases accepted
  · rintro ⟨record, extra, storable, rfl, accepted⟩
    simp only [ofBytesOn, lawful_wire.read_write storable, accepted]

theorem wellFormed_of_ofBytes_eq_ok (ok : ofBytes bytes = .ok n) : n.WellFormed := by
  obtain ⟨record, -, -, -, accepted⟩ := ofBytesOn_eq_ok_iff.mp ok
  exact wellFormed_of_ofLayers_eq_ok accepted

theorem WellFormed.ofBytes_toBytes_append (wellFormed : n.WellFormed) (storable : n.Storable)
    (extra : List UInt8) : ofBytes (n.toBytes ++ extra) = .ok n :=
  ofBytesOn_eq_ok_iff.mpr ⟨n, extra, storable, rfl, wellFormed.ofLayers_eq⟩

theorem Storable.ofBytes_of_prefix (storable : n.Storable) {part : List UInt8}
    (begins : part <+: n.toBytes) (cut : part ≠ n.toBytes) :
    ofBytes part = .error (.error .malformedBytes) := by
  simp only [ofBytes, ofBytesOn, lawful_wire.read_eq_none storable begins cut]

end Network

namespace Layer

variable {l : Layer Parameter}

/-- Number of bytes of a stored layer. -/
def storedLength (l : Layer Parameter) : Nat :=
  36 + 4 * (l.weights.length + l.bias.length)

/-- What a layer is stored as before its tag. -/
def storedFront (l : Layer Parameter) : List UInt8 :=
  Wire.writeNat 8 l.inputs ++ (Wire.writeNat 8 l.outputs ++
    ((Wire.list Parameter.wire).write l.weights ++ (Wire.list Parameter.wire).write l.bias))

theorem write_eq (l : Layer Parameter) :
    wire.write l = l.storedFront ++ Wire.writeNat 4 l.activation.tag := by
  simp [wire, storedFront, Wire.via, Wire.pair, Wire.nat, Activation.wire]

theorem storedFront_activation (l : Layer Parameter) (activation : Activation) :
    storedFront { l with activation } = l.storedFront :=
  rfl

theorem length_write_parameters (ps : List Parameter) :
    ((Wire.list Parameter.wire).write ps).length = 8 + 4 * ps.length := by
  have each : ∀ p : Parameter, (Parameter.wire.write p).length = 4 := fun p =>
    Wire.length_writeNat 4 p.bits.toNat
  simp [Wire.list, List.length_flatMap, each, Nat.mul_comm]

theorem length_storedFront (l : Layer Parameter) : l.storedFront.length + 4 = l.storedLength := by
  simp only [storedFront, storedLength, List.length_append, Wire.length_writeNat,
    length_write_parameters]
  omega

theorem length_write (l : Layer Parameter) : (wire.write l).length = l.storedLength := by
  rw [write_eq, List.length_append, Wire.length_writeNat, length_storedFront]

end Layer

namespace Network

/-- Positions of the tags of stored layers whose first byte stands at the given position. -/
def tagPositions : (start : Nat) → List (Layer Parameter) → List Nat
  | _, [] => []
  | start, l :: layers =>
      List.range' (start + l.storedLength - 4) 4 ++ tagPositions (start + l.storedLength) layers

/-- What a network is stored as before its layers: its two widths. -/
def storedFront (n : Network Parameter) : List UInt8 :=
  Wire.writeNat 8 n.inputs ++ Wire.writeNat 8 n.layers.length

theorem write_eq (n : Network Parameter) :
    wire.write n = n.storedFront ++ n.layers.flatMap Layer.wire.write := by
  simp [wire, storedFront, Wire.via, Wire.pair, Wire.nat, Wire.list]

@[simp] theorem length_storedFront (n : Network Parameter) : n.storedFront.length = 16 := by
  simp [storedFront]

@[simp] theorem length_assignActivations (layers : List (Layer Parameter)) :
    (assignActivations layers).length = layers.length := by
  induction layers with
  | nil => rfl
  | cons l layers ih => rw [assignActivations, List.length_cons, List.length_cons, ih]

theorem length_flatMap_write_assignActivations (layers : List (Layer Parameter)) :
    ((assignActivations layers).flatMap Layer.wire.write).length =
      (layers.flatMap Layer.wire.write).length := by
  induction layers with
  | nil => rfl
  | cons l layers ih =>
    rw [assignActivations, List.flatMap_cons, List.flatMap_cons, List.length_append,
      List.length_append, ih, Layer.length_write, Layer.length_write]
    rfl

/-- Assigning activations changes no byte but those of the tags. -/
theorem getElem?_flatMap_write_assignActivations {start i : Nat} {layers : List (Layer Parameter)}
    (outside : start + i ∉ tagPositions start layers) :
    ((assignActivations layers).flatMap Layer.wire.write)[i]? =
      (layers.flatMap Layer.wire.write)[i]? := by
  induction layers generalizing start i with
  | nil => rfl
  | cons l layers ih =>
    have length := l.length_storedFront
    rw [tagPositions, List.mem_append, not_or, List.mem_range'_1] at outside
    obtain ⟨no_tag, outside⟩ := outside
    rw [assignActivations, List.flatMap_cons, List.flatMap_cons, Layer.write_eq, Layer.write_eq,
      Layer.storedFront_activation, List.append_assoc, List.append_assoc]
    by_cases front : i < l.storedFront.length
    · rw [List.getElem?_append_left front, List.getElem?_append_left front]
    · have past : l.storedLength ≤ i := by omega
      have after : start + l.storedLength + (i - l.storedLength) = start + i := by omega
      rw [← after] at outside
      have skip (tag : Nat) (rest : List UInt8) :
          (l.storedFront ++ (Wire.writeNat 4 tag ++ rest))[i]? = rest[i - l.storedLength]? := by
        rw [List.getElem?_append_right (by omega), List.getElem?_append_right, Wire.length_writeNat,
          Nat.sub_sub, length]
        rw [Wire.length_writeNat]
        omega
      rw [skip, skip]
      exact ih outside

/-- What is accepted is stored in as many bytes as the layers it comes from, and in the same ones
    outside their tags. -/
theorem stored_alike_of_ofLayers {record : Network Parameter}
    (accepted : ofLayers record.inputs record.layers = .ok m) :
    m.toBytes.length = (wire.write record).length ∧
      ∀ i, i ∉ tagPositions 16 record.layers → m.toBytes[i]? = (wire.write record)[i]? := by
  obtain ⟨-, -, -, rfl⟩ := ofLayers_eq_ok_iff.mp accepted
  have front : storedFront ⟨record.inputs, assignActivations record.layers⟩ =
      record.storedFront := by
    rw [storedFront, storedFront, length_assignActivations]
  rw [toBytes, write_eq, write_eq, front]
  constructor
  · rw [List.length_append, List.length_append, length_flatMap_write_assignActivations]
  · intro i outside
    by_cases early : i < record.storedFront.length
    · rw [List.getElem?_append_left early, List.getElem?_append_left early]
    · rw [not_lt] at early
      rw [List.getElem?_append_right early, List.getElem?_append_right early]
      rw [← Nat.add_sub_cancel' early, length_storedFront] at outside
      rw [length_storedFront]
      exact getElem?_flatMap_write_assignActivations outside

/-- An accepted network is read back from the front of any bytes, and no part of its bytes that
    ends early is read. Bytes are read exactly when they begin with the stored form of layers that
    are accepted, and what is read is stored alike, up to the tags. -/
theorem ofBytes_toBytes :
    (∀ (width : Nat) (layers : List (Layer Parameter)) (n : Network Parameter),
      ofLayers width layers = .ok n → n.Storable →
        (∀ extra, ofBytes (n.toBytes ++ extra) = .ok n) ∧
          ∀ part, part <+: n.toBytes → part ≠ n.toBytes →
            ofBytes part = .error (.error .malformedBytes)) ∧
    (∀ (bytes : List UInt8) (m : Network Parameter), ofBytes bytes = .ok m ↔
      ∃ (record : Network Parameter) (extra : List UInt8), record.Storable ∧
        bytes = wire.write record ++ extra ∧ ofLayers record.inputs record.layers = .ok m) ∧
    ∀ record m : Network Parameter, ofLayers record.inputs record.layers = .ok m →
      m.toBytes.length = (wire.write record).length ∧
        ∀ i, i ∉ tagPositions 16 record.layers → m.toBytes[i]? = (wire.write record)[i]? := by
  refine ⟨?_, fun bytes m => ofBytesOn_eq_ok_iff, fun record m => stored_alike_of_ofLayers⟩
  intro width layers n accepted storable
  have wellFormed : n.WellFormed := wellFormed_of_ofLayers_eq_ok accepted
  exact ⟨wellFormed.ofBytes_toBytes_append storable, fun part begins cut =>
    storable.ofBytes_of_prefix begins cut⟩

theorem ofBytes_toBytes_small :
    ofLayers 2 small.layers = .ok small ∧ small.Storable ∧
      ofBytes (small.toBytes ++ [1, 2, 3]) = .ok small ∧
      ofBytes (small.toBytes.take 40) = .error (.error .malformedBytes) ∧ small.toBytes.length = 140 := by
  have accepted : ofLayers 2 small.layers = .ok small := rfl
  have storable : small.Storable := ⟨by decide, by decide, by
    rw [small, List.forall_mem_cons, List.forall_mem_singleton]
    exact ⟨⟨by decide, by decide, by decide, by decide⟩,
      ⟨by decide, by decide, by decide, by decide⟩⟩⟩
  obtain ⟨reads, cut⟩ := ofBytes_toBytes.1 2 small.layers small accepted storable
  have length : small.toBytes.length = 140 := by decide +kernel
  refine ⟨accepted, storable, reads [1, 2, 3], cut _ (List.take_prefix 40 _) ?_, length⟩
  intro whole
  have short : (small.toBytes.take 40).length = 140 := by rw [whole, length]
  rw [List.length_take, length] at short
  omega

end Network

end FixedPointNet
