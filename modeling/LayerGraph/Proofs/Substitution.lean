import LayerGraph.Proofs.Valuation

/-!
# One graph in place of another

When every node of a graph computes what some node of another graph computes, the one can
stand in for the other: it is valid with the same bindings and has the same values at its
outputs. What is asked of each node concerns only the node and the tensors it reads.
-/

set_option autoImplicit false

namespace LayerGraph

theorem bind_eq_of_rel {α β γ : Type} {r : α → β → Prop} {x : Option α} {y : Option β}
    {f : α → Option γ} {g : β → Option γ} (h : Option.Rel r x y) (hr : ∀ a b, r a b → f a = g b) :
    x.bind f = y.bind g := by
  cases h with
  | some hab => exact hr _ _ hab
  | none => rfl

theorem Reference.mem_types_reshape (t : DataType) : t ∈ Reference.types .reshape := by
  cases t <;> decide

namespace Graph

variable {f : FloatAddition} {table : BindingTable} {g h k : Graph} {origin : NodeId → NodeId}
  {id : NodeId} {node : Node}

/-- A valid graph with the bindings and the output values of another. -/
structure Refines (f : FloatAddition) (table : BindingTable) (g h : Graph) : Prop where
  valid : h.Valid table
  supported : h.Supported
  value : ∀ inputs, table.Fed inputs → ∀ b ∈ table.outputs,
    h.value? f inputs b.node = g.value? f inputs b.node

theorem Refines.refl (hv : g.Valid table) (hs : g.Supported) : Refines f table g g :=
  ⟨hv, hs, fun _ _ _ _ => rfl⟩

theorem Refines.trans (hgh : Refines f table g h) (hhk : Refines f table h k) :
    Refines f table g k :=
  ⟨hhk.valid, hhk.supported, fun inputs hf b hb =>
    (hhk.value inputs hf b hb).trans (hgh.value inputs hf b hb)⟩

/-- A valid graph with the bindings of another, which it refines once that one is supported. -/
structure Revises (f : FloatAddition) (table : BindingTable) (g h : Graph) : Prop where
  valid : h.Valid table
  refines : g.Supported → Refines f table g h

theorem Revises.refl (hv : g.Valid table) : Revises f table g g := ⟨hv, .refl hv⟩

theorem Revises.trans (hgh : Revises f table g h) (hhk : Revises f table h k) :
    Revises f table g k :=
  ⟨hhk.valid, fun hs => (hgh.refines hs).trans (hhk.refines (hgh.refines hs).supported)⟩

/-- The output `o` of `h` holds the tensor of the output `p` of `g`, where `origin` tells for
every node of `h` the node of `g` that has its value. -/
structure Carries (f : FloatAddition) (table : BindingTable) (g h : Graph)
    (origin : NodeId → NodeId) (o p : OutputSlot) : Prop where
  descriptor : h.outputDescriptor? o = g.outputDescriptor? p
  value : g.Supported → ∀ inputs, table.Fed inputs →
    g.value? f inputs (origin o.node) = g.value? f inputs p.node

/-- A node that both graphs have, and that reads the same tensors in both. -/
structure Kept (f : FloatAddition) (table : BindingTable) (g h : Graph)
    (origin : NodeId → NodeId) (id : NodeId) : Prop where
  frame : h.frame? id = g.frame? id
  origin_eq : origin id = id
  sources : ∀ i, Option.Rel (Carries f table g h origin) (h.source? ⟨id, i⟩) (g.source? ⟨id, i⟩)

/-- A reshape of `h` that reads the value it is to have. -/
structure Reshapes (f : FloatAddition) (table : BindingTable) (g h : Graph)
    (origin : NodeId → NodeId) (id : NodeId) (node : Node) (o : OutputSlot) (a b : Descriptor) :
    Prop where
  operation : node.operation = .reshape b.shape
  source : h.source? ⟨id, 0⟩ = some o
  read : h.outputDescriptor? o = some a
  written : h.outputDescriptor? ⟨id, 0⟩ = some b
  count : a.numElements = b.numElements
  dataType : a.dataType = b.dataType
  value : g.Supported → ∀ inputs, table.Fed inputs →
    g.value? f inputs (origin o.node) = g.value? f inputs (origin id)
  earlier : ∀ old, g.node? id = some old → old.kind = .reshape

structure Substitutes (f : FloatAddition) (table : BindingTable) (g h : Graph)
    (origin : NodeId → NodeId) : Prop where
  sound : h.Sound
  node : ∀ id node, h.node? id = some node →
    Kept f table g h origin id ∨ ∃ o a b, Reshapes f table g h origin id node o a b
  gone : ∀ id node, g.node? id = some node → h.node? id = none →
    node.kind ≠ .input ∧ node.kind ≠ .output

theorem exists_node_with_frame (hf : h.frame? id = g.frame? id) (hn : g.node? id = some node) :
    ∃ other, h.node? id = some other ∧ other.frame = node.frame := by
  simpa [frame?, hn] using hf

theorem exists_node_of_frame (hf : h.frame? id = g.frame? id) (hn : g.node? id = some node) :
    ∃ other, h.node? id = some other ∧ other.name = node.name ∧
      other.operation = node.operation := by
  obtain ⟨other, ho, heq⟩ := exists_node_with_frame hf hn
  exact ⟨other, ho, congrArg NodeFrame.name heq, congrArg NodeFrame.operation heq⟩

namespace Kept

variable (hk : Kept f table g h origin id)

include hk

theorem old_node (hn : h.node? id = some node) :
    ∃ old, g.node? id = some old ∧ old.name = node.name ∧ old.operation = node.operation :=
  exists_node_of_frame hk.frame.symm hn

theorem inputDescriptor? (i : Nat) : h.inputDescriptor? ⟨id, i⟩ = g.inputDescriptor? ⟨id, i⟩ := by
  rw [inputDescriptor?_eq, inputDescriptor?_eq]
  exact bind_eq_of_rel (hk.sources i) fun o p hc => hc.descriptor

theorem typed {operation : Operation} {reads : List Descriptor} {written : Descriptor}
    (ht : g.Typed id operation reads written) : h.Typed id operation reads written where
  takes := ht.takes
  reads_eq hkind := by
    rw [← ht.reads_eq hkind]
    simp only [hk.inputDescriptor?]
  written_eq hkind := by
    rw [← ht.written_eq hkind, outputDescriptor?_eq_frame, outputDescriptor?_eq_frame, hk.frame]

theorem nodeValue (hs : g.Supported) {inputs : String → Option Memory} (hf : table.Fed inputs)
    (hg : g.Sound) :
    h.nodeValue f inputs (fun k => g.value? f inputs (origin k)) id = g.value? f inputs id := by
  rw [hg.value?_eq]
  refine nodeValue_congr hk.frame (fun i => ?_) (hk.inputDescriptor? 0)
  exact bind_eq_of_rel (hk.sources i) fun o p hc => hc.value hs inputs hf

end Kept

namespace Reshapes

variable {o : OutputSlot} {a b : Descriptor} (hr : Reshapes f table g h origin id node o a b)

include hr

theorem typed : h.Typed id node.operation [a] b where
  takes := hr.operation ▸ .reshape hr.count hr.dataType
  reads_eq _ := by
    simp [hr.operation, Operation.kind, OperationKind.numInputs, inputDescriptor?_eq, hr.source,
      hr.read]
  written_eq _ := hr.written

theorem nodeValue (hn : h.node? id = some node) (hs : g.Supported)
    {inputs : String → Option Memory} (hf : table.Fed inputs) :
    h.nodeValue f inputs (fun k => g.value? f inputs (origin k)) id =
      g.value? f inputs (origin id) := by
  have hsource := hr.source
  rw [source?_of_node hn] at hsource
  simp [Graph.nodeValue, hn, hr.operation, hsource, hr.value hs inputs hf]

end Reshapes

theorem boundary?_eq_none (hin : node.kind ≠ .input) (hout : node.kind ≠ .output) :
    g.boundary? node = none := by
  cases hb : g.boundary? node with
  | none => rfl
  | some entry =>
    obtain ⟨d, b⟩ := entry
    have hk := (boundary?_spec hb).2.2
    cases d with
    | input => exact absurd hk hin
    | output => exact absurd hk hout

/-- The boundary of a graph, position by position, with room to spare. -/
theorem filterMap_boundary? {count : Nat} (hc : g.nodes.size ≤ count) :
    g.liveNodes.filterMap g.boundary? =
      (List.range count).filterMap fun id => (g.node? id).bind g.boundary? := by
  obtain ⟨extra, rfl⟩ := Nat.exists_eq_add_of_le hc
  have hrest : ((List.range extra).map (g.nodes.size + ·)).filterMap
      (fun id => (g.node? id).bind g.boundary?) = [] := by
    rw [List.filterMap_eq_nil_iff]
    intro id hid
    obtain ⟨i, -, rfl⟩ := List.mem_map.1 hid
    simp [node?_eq_none_of_size_le g (Nat.le_add_right _ i)]
  rw [List.range_add, List.filterMap_append, hrest, List.append_nil, liveNodes_eq,
    List.filterMap_filterMap]

namespace Substitutes

variable (hsub : Substitutes f table g h origin) (hv : g.Valid table)

include hsub hv

theorem typed (hn : h.node? id = some node) :
    ∃ reads written, h.Typed id node.operation reads written := by
  rcases hsub.node id node hn with hk | ⟨o, a, b, hr⟩
  · obtain ⟨old, hold, -, hop⟩ := hk.old_node hn
    obtain ⟨reads, written, ht⟩ := hv.typed id old hold
    exact ⟨reads, written, hk.typed (hop ▸ ht)⟩
  · exact ⟨[a], b, hr.typed⟩

theorem boundary?_eq (id : NodeId) :
    (h.node? id).bind h.boundary? = (g.node? id).bind g.boundary? := by
  cases hn : h.node? id with
  | none =>
    cases hold : g.node? id with
    | none => rfl
    | some old =>
      have hkind := hsub.gone id old hold hn
      simp [boundary?_eq_none hkind.1 hkind.2]
  | some node =>
    rcases hsub.node id node hn with hk | ⟨o, a, b, hr⟩
    · obtain ⟨old, hold, hname, hop⟩ := hk.old_node hn
      obtain ⟨reads, written, ht⟩ := hv.typed id old hold
      have ht' : h.Typed id node.operation reads written := hk.typed (hop ▸ ht)
      rw [hold, Option.bind_some, Option.bind_some, ht.boundary? hv.sound hold,
        ht'.boundary? hsub.sound hn, hop, hname]
    · have hkind : node.kind = .reshape := by rw [Node.kind, hr.operation]; rfl
      rw [Option.bind_some, boundary?_eq_none (by simp [hkind]) (by simp [hkind])]
      cases hold : g.node? id with
      | none => rfl
      | some old =>
        have hkind := hr.earlier old hold
        exact (boundary?_eq_none (by simp [hkind]) (by simp [hkind])).symm

theorem bindings : h.bindingTable = .ok table := by
  have hbindings := hv.bindings
  rw [bindingTable_eq hv.sound hv.typed, filterMap_boundary? (Nat.le_max_left _ h.nodes.size)]
    at hbindings
  rw [bindingTable_eq hsub.sound fun _ _ => hsub.typed hv,
    filterMap_boundary? (Nat.le_max_right g.nodes.size _), ← hbindings]
  simp only [hsub.boundary?_eq hv]

theorem value (hs : g.Supported) {inputs : String → Option Memory} (hf : table.Fed inputs)
    (hc : h.contains id = true) : h.value? f inputs id = g.value? f inputs (origin id) := by
  -- the values of the origins solve the equations of `h`, which have one solution
  refine (hsub.sound.eq_value? (v := fun k => g.value? f inputs (origin k)) (fun id hc => ?_)
    hc).symm
  obtain ⟨node, hn⟩ := contains_iff.1 hc
  rcases hsub.node id node hn with hk | ⟨o, a, b, hr⟩
  · rw [hk.nodeValue hs hf hv.sound, hk.origin_eq]
  · rw [hr.nodeValue hn hs hf]

theorem valid : h.Valid table := ⟨hsub.sound, fun _ _ => hsub.typed hv, hsub.bindings hv⟩

/-- A graph that substitutes for another refines it. -/
theorem refines (hs : g.Supported) : Refines f table g h := by
  have hvalid := hsub.valid hv
  refine ⟨hvalid, fun id node reads written hn ht => ?_, fun inputs hf b hb => ?_⟩
  · rcases hsub.node id node hn with hk | ⟨o, a, b, hr⟩
    · obtain ⟨old, hold, -, hop⟩ := hk.old_node hn
      obtain ⟨reads', written', ht'⟩ := hv.typed id old hold
      rw [(ht.unique (hk.typed (hop ▸ ht'))).2, Node.kind, ← hop]
      exact hs id old reads' written' hold ht'
    · rw [Node.kind, hr.operation]
      exact Reference.mem_types_reshape _
  · obtain ⟨node, hn, hbound⟩ := (hvalid.mem_side_iff (d := .output)).1 hb
    rw [hsub.value hv hs hf (contains_iff.2 ⟨node, hn⟩)]
    rcases hsub.node b.node node hn with hk | ⟨o, a, d, hr⟩
    · rw [hk.origin_eq]
    · have hkind := (boundary?_spec hbound).2.2
      simp [Node.kind, hr.operation, Operation.kind, Direction.kind] at hkind

theorem revises : Revises f table g h := ⟨hsub.valid hv, hsub.refines hv⟩

end Substitutes

end Graph

end LayerGraph
