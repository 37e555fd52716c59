import FixedPointNet.Keystream
import FixedPointNet.Network.Edit
import FixedPointNet.Proofs.Network.Bytes
import FixedPointNet.Proofs.Pruning.Chain

/-!
# What a session keeps

Whatever an edit does, its result has passed the check of `Network.ofLayersOn`. So from the first
edit that succeeds on, the current network of a session is accepted again as it is, after every
sequence of attempted edits and with any generator. That says everything about its layers, but for
one gap: in a build that lets the product of two widths wrap, a layer whose product is no machine
word is held to what is left of it, and not to the weights that its widths call for.
-/

namespace FixedPointNet.Network

variable {α : Type} {overflow : Overflow} {generator : Generator} {width : Nat}
  {layers : List (Layer α)} {n : Network α} {current next start : Network Parameter} {e : Edit}

theorem inputs_head_of_checkChain (passed : checkChain overflow width layers = .ok ()) {l : Layer α}
    (first : layers.head? = some l) : l.inputs = width := by
  cases layers with
  | nil => cases first
  | cons head rest =>
    obtain rfl := Option.some.inj first
    exact (checkChain_cons_eq_ok_iff.mp passed).1

theorem inputs_getElem?_of_checkChain (passed : checkChain overflow width layers = .ok ()) {k : Nat}
    {l following : Layer α} (at_k : layers[k]? = some l)
    (behind : layers[k + 1]? = some following) : following.inputs = l.outputs := by
  induction layers generalizing width k with
  | nil => cases at_k
  | cons first rest ih =>
    obtain ⟨-, -, passed⟩ := checkChain_cons_eq_ok_iff.mp passed
    cases k with
    | zero =>
      obtain rfl : first = l := by simpa using at_k
      apply inputs_head_of_checkChain passed
      rw [List.head?_eq_getElem?]
      exact behind
    | succ k => exact ih passed at_k behind

theorem checkLengths_of_checkChain (passed : checkChain overflow width layers = .ok ()) :
    ∀ l ∈ layers, l.checkLengths overflow = .ok () := by
  induction layers generalizing width with
  | nil => exact fun l absent => nomatch absent
  | cons first rest ih =>
    obtain ⟨-, lengths, passed⟩ := checkChain_cons_eq_ok_iff.mp passed
    exact List.forall_mem_cons.mpr ⟨lengths, ih passed⟩

theorem activation_hidden (layers : List (Layer α)) :
    ∀ l ∈ (assignActivations layers).dropLast, l.activation = .relu := by
  induction layers with
  | nil => exact fun l absent => nomatch absent
  | cons first rest ih =>
    cases rest with
    | nil => exact fun l absent => nomatch absent
    | cons following rest => exact List.forall_mem_cons.mpr ⟨rfl, ih⟩

theorem activation_head (layers : List (Layer α)) {l : Layer α}
    (last : (assignActivations layers).getLast? = some l) :
    l.activation = .forPosition true l.outputs := by
  induction layers with
  | nil => cases last
  | cons first rest ih =>
    cases rest with
    | nil =>
      obtain rfl := Option.some.inj last
      rfl
    | cons following rest => exact ih (by rwa [assignActivations, assignActivations,
        List.getLast?_cons_cons] at last)

/-- What holds of every network of a session, layer by layer. -/
structure Sound (overflow : Overflow) (n : Network α) : Prop where
  layers_ne_nil : n.layers ≠ []
  first : ∀ l, n.layers.head? = some l → l.inputs = n.inputs
  chained : ∀ k l following, n.layers[k]? = some l → n.layers[k + 1]? = some following →
    following.inputs = l.outputs
  /-- The weights fill the matrix, in a build that stops where its size is no machine word and
      wherever that size is one. -/
  weights : ∀ l ∈ n.layers, overflow = .stops ∨ l.inputs * l.outputs < countLimit →
    l.weights.length = l.inputs * l.outputs
  /-- In every build the weights are as many as the word for the size of the matrix says. -/
  weights_mod : ∀ l ∈ n.layers, l.weights.length = l.inputs * l.outputs % countLimit
  bias : ∀ l ∈ n.layers, l.bias.length = l.outputs
  hidden : ∀ l ∈ n.hidden, l.activation = .relu
  head : ∀ l, n.layers.getLast? = some l →
    (l.activation = .sigmoid ↔ l.outputs = 1) ∧ (l.activation = .softmax ↔ l.outputs ≠ 1)
  rebuilt : ofLayersOn overflow n.inputs n.layers = .ok n

/-- The layers of a network make the same network again. -/
def Rebuilds (overflow : Overflow) (n : Network α) : Prop :=
  ofLayersOn overflow n.inputs n.layers = .ok n

theorem Rebuilds.sound (rebuilds : n.Rebuilds overflow) : n.Sound overflow := by
  obtain ⟨nonempty, passed, same⟩ := ofLayersOn_eq_ok_iff.mp rebuilds
  have settled : assignActivations n.layers = n.layers := (congrArg Network.layers same).symm
  have lengths (l : Layer α) (member : l ∈ n.layers) :=
    Layer.checkLengths_eq_ok_iff.mp (checkLengths_of_checkChain passed l member)
  refine
    { layers_ne_nil := nonempty
      first := fun _ => inputs_head_of_checkChain passed
      chained := fun _ _ _ => inputs_getElem?_of_checkChain passed
      weights := ?_
      weights_mod := fun l member => Overflow.eq_mod_of_narrow (lengths l member).1
      bias := fun l member => (lengths l member).2
      hidden := ?_
      head := ?_
      rebuilt := rebuilds }
  · intro l member fits
    have narrowed := (lengths l member).1
    rcases fits with rfl | fits
    · exact (Overflow.narrow_stops_eq_ok_iff.mp narrowed).2
    · exact (Overflow.eq_iff_lt_of_narrow narrowed).mpr fits
  · have hidden := activation_hidden n.layers
    rwa [settled] at hidden
  · intro l last
    rw [← settled] at last
    rw [activation_head n.layers last, Activation.forPosition, if_pos rfl]
    split_ifs with single <;> simp [single]

theorem WellFormed.sound (wellFormed : n.WellFormed) : n.Sound .stops :=
  Rebuilds.sound wellFormed.ofLayers_eq

theorem exists_ofLayersOn_of_random {widths : List Nat} {seed : UInt64}
    (ok : random overflow generator widths seed = .ok next) :
    ∃ width layers, ofLayersOn overflow width layers = .ok next := by
  unfold random at ok
  split at ok
  · obtain ⟨layers, -, accepted⟩ := except_bind_eq_ok_iff.mp ok
    exact ⟨_, layers, accepted⟩
  · cases ok

/-- Pruning ends with the check of the rebuilt layers, whatever the network was. -/
theorem exists_ofLayersOn_of_pruneOn {counts : List Nat}
    (ok : current.pruneOn overflow counts = .ok next) :
    ∃ width layers, ofLayersOn overflow width layers = .ok next := by
  simp only [pruneOn, ite_throw_bind_eq_ok_iff, except_bind_eq_ok_iff] at ok
  obtain ⟨-, -, -, -, layers, -, accepted⟩ := ok
  exact ⟨_, layers, accepted⟩

/-- A successful edit makes, of any network, one that its own layers make again. -/
theorem Edit.rebuilds_of_apply (ok : e.apply overflow generator current = .ok next) :
    next.Rebuilds overflow := by
  have checked : ∃ width layers, ofLayersOn overflow width layers = .ok next := by
    cases e with
    | build inputs layers => exact ⟨_, _, ok⟩
    | draw widths seed => exact exists_ofLayersOn_of_random ok
    | load bytes =>
      obtain ⟨record, -, -, -, accepted⟩ := ofBytesOn_eq_ok_iff.mp ok
      exact ⟨_, _, accepted⟩
    | prune counts => exact exists_ofLayersOn_of_pruneOn ok
    | pruneRatio ratio => exact exists_ofLayersOn_of_pruneOn ok
    | relayer dropped added => exact ⟨_, _, ok⟩
  obtain ⟨width, layers, accepted⟩ := checked
  exact ofLayersOn_of_accepted accepted

theorem edit_of_ok (ok : e.apply overflow generator current = .ok next) :
    current.edit overflow generator e = next := by
  rw [edit, ok]

theorem edit_of_error {failure : Failure}
    (error : e.apply overflow generator current = .error failure) :
    current.edit overflow generator e = current := by
  rw [edit, error]

/-- One attempted edit keeps a network that its own layers make again. -/
theorem Rebuilds.edit (rebuilds : current.Rebuilds overflow) (generator : Generator) (e : Edit) :
    (current.edit overflow generator e).Rebuilds overflow := by
  cases applied : e.apply overflow generator current with
  | ok next =>
    rw [edit_of_ok applied]
    exact e.rebuilds_of_apply applied
  | error failure => rwa [edit_of_error applied]

/-- A session keeps a network that its own layers make again. -/
theorem Rebuilds.edits (rebuilds : current.Rebuilds overflow) (generator : Generator)
    (es : List Edit) : (current.edits overflow generator es).Rebuilds overflow := by
  induction es generalizing current with
  | nil => exact rebuilds
  | cons e es ih => exact ih (rebuilds.edit generator e)

theorem edits_append (overflow : Overflow) (generator : Generator) (current : Network Parameter)
    (es : List Edit) (e : Edit) :
    current.edits overflow generator (es ++ [e]) =
      (current.edits overflow generator es).edit overflow generator e := by
  rw [edits, edits, List.foldl_append, List.foldl_cons, List.foldl_nil]

/-- From the first edit that succeeds on, every network of a session is sound, whatever is
    attempted, in either build and with any generator. The next edit either succeeds and its result
    becomes the current network, or it fails and the current network stays as it was. -/
theorem edits_sound {first : Edit} {blank : Network Parameter}
    (made : first.apply overflow generator blank = .ok start) (es : List Edit) :
    (start.edits overflow generator es).Sound overflow ∧ ∀ e : Edit,
      (∃ next, e.apply overflow generator (start.edits overflow generator es) = .ok next ∧
        start.edits overflow generator (es ++ [e]) = next ∧ next.Sound overflow) ∨
      ∃ failure,
        e.apply overflow generator (start.edits overflow generator es) = .error failure ∧
        start.edits overflow generator (es ++ [e]) = start.edits overflow generator es := by
  refine ⟨((first.rebuilds_of_apply made).edits generator es).sound, ?_⟩
  intro e
  rw [edits_append]
  cases applied : e.apply overflow generator (start.edits overflow generator es) with
  | ok next =>
    exact .inl ⟨next, rfl, edit_of_ok applied, (e.rebuilds_of_apply applied).sound⟩
  | error failure => exact .inr ⟨failure, rfl, edit_of_error applied⟩

/-- A session in which every other edit fails. The head of the first network becomes a hidden layer
    of the last one, which brings the activation of a head with one unit but has two. -/
def session : List Edit :=
  [.prune [3], .prune [1], .load [1, 2, 3], .relayer 0 [⟨1, 2, [⟨0⟩, ⟨0⟩], [⟨0⟩, ⟨0⟩], .sigmoid⟩],
    .draw [2, 0] 7]

theorem edits_sound_session :
    Edit.apply .stops Keystream.generator ⟨0, []⟩ (.build small.inputs small.layers) = .ok small ∧
      (small.edits .stops Keystream.generator session).Sound .stops ∧
      (small.edits .stops Keystream.generator session).widths = [2, 2, 1, 2] ∧
      (small.edits .stops Keystream.generator session).layers.map Layer.activation =
        [.relu, .relu, .softmax] := by
  have made : Edit.apply .stops Keystream.generator ⟨0, []⟩ (.build small.inputs small.layers) =
      .ok small := rfl
  have refused : small.edit .stops Keystream.generator (.prune [3]) = small := rfl
  have pruned : small.edit .stops Keystream.generator (.prune [1]) = small.pruned [1] :=
    edit_of_ok (wellFormed_small.prune_eq ⟨by decide, .cons (by decide) .nil⟩)
  have run : small.edits .stops Keystream.generator session =
      (small.pruned [1]).edits .stops Keystream.generator (session.drop 2) := by
    rw [session, edits, List.foldl_cons, refused, List.foldl_cons, pruned]
    rfl
  refine ⟨made, (edits_sound made session).1, ?_⟩
  rw [run]
  decide +kernel

/-- A layer of two units with so many inputs that the number of its weights is twice no machine
    word, but wraps to zero. It has no weights. -/
def unbacked : Network Parameter :=
  ⟨0x8000000000000000, [⟨0x8000000000000000, 2, [], [⟨0⟩, ⟨0⟩], .softmax⟩]⟩

/-- A build that lets the product wrap reads a network from sixty bytes whose layer does not have
    the weights that its widths call for, and accepts the same layers when it is given them. A build
    that stops reads no network there. -/
theorem load_unbacked :
    unbacked.toBytes.length = 60 ∧
      Edit.apply .wraps Keystream.generator ⟨0, []⟩ (.load unbacked.toBytes) = .ok unbacked ∧
      Edit.apply .wraps Keystream.generator ⟨0, []⟩ (.build unbacked.inputs unbacked.layers) =
        .ok unbacked ∧
      (∃ l ∈ unbacked.layers, l.weights.length ≠ l.inputs * l.outputs) ∧
      Edit.apply .stops Keystream.generator ⟨0, []⟩ (.load unbacked.toBytes) =
        .error (.fault .overflow) := by
  refine ⟨by decide +kernel, by rfl, by rfl, ⟨_, List.mem_singleton_self _, by decide⟩, by rfl⟩

end FixedPointNet.Network
