import LayerGraph.Proofs.Boundary

/-!
# Values of a graph

The values of the nodes are the only solution of the equations that the nodes pose. On a
valid graph whose inputs are supplied every node has a value, and it fits the descriptor
of what the node writes.
-/

set_option autoImplicit false

namespace LayerGraph

namespace Graph

variable {f : FloatAddition} {g h : Graph} {inputs : String → Option Memory}
  {v w : NodeId → Option Memory} {id : NodeId} {node : Node}

/-- The value of a node is told by what the node is, the values it reads and their
descriptors. -/
theorem nodeValue_eq_of_node {i j : NodeId} {other : Node} (hi : g.node? i = some node)
    (hj : h.node? j = some other) (hname : other.name = node.name)
    (hop : other.operation = node.operation)
    (hout : other.outputDescriptor? 0 = node.outputDescriptor? 0)
    (hoperand : ∀ k, ((h.source? ⟨j, k⟩).bind fun o => w o.node) =
      (g.source? ⟨i, k⟩).bind fun o => v o.node)
    (hinput : h.inputDescriptor? ⟨j, 0⟩ = g.inputDescriptor? ⟨i, 0⟩) :
    h.nodeValue f inputs w j = g.nodeValue f inputs v i := by
  simp only [source?_of_node hi, source?_of_node hj] at hoperand
  simp only [nodeValue, hi, hj, Option.bind_eq_bind, Option.bind_some, hop, hname, hout, hinput,
    hoperand]

theorem nodeValue_congr (hframe : h.frame? id = g.frame? id)
    (hoperand : ∀ i, ((h.source? ⟨id, i⟩).bind fun o => w o.node) =
      (g.source? ⟨id, i⟩).bind fun o => v o.node)
    (hinput : h.inputDescriptor? ⟨id, 0⟩ = g.inputDescriptor? ⟨id, 0⟩) :
    h.nodeValue f inputs w id = g.nodeValue f inputs v id := by
  cases hn : g.node? id with
  | none =>
    have hm : h.node? id = none := by simpa [frame?, hn] using hframe
    simp [nodeValue, hn, hm]
  | some node =>
    obtain ⟨other, hm, hf⟩ : ∃ other, h.node? id = some other ∧ other.frame = node.frame := by
      simpa [frame?, hn] using hframe
    have hout : other.outputDescriptor? 0 = node.outputDescriptor? 0 := by
      rw [← outputDescriptor?_of_node hn, ← outputDescriptor?_of_node hm,
        outputDescriptor?_eq_frame, outputDescriptor?_eq_frame, hframe]
    exact nodeValue_eq_of_node hn hm (congrArg NodeFrame.name hf)
      (congrArg NodeFrame.operation hf) hout hoperand hinput

theorem nodeValue_congr_values (hvw : ∀ i o, g.source? ⟨id, i⟩ = some o → w o.node = v o.node) :
    g.nodeValue f inputs w id = g.nodeValue f inputs v id :=
  nodeValue_congr rfl (fun i => Option.bind_congr (hvw i)) rfl

/-- Looking further back than all the nodes listed so far changes nothing for them. -/
theorem valueWithin_stable {listed : List NodeId} (hl : g.AfterProducers listed) {a b : Nat}
    (ha : listed.length ≤ a) (hb : listed.length ≤ b) (hid : id ∈ listed) :
    g.valueWithin f inputs a id = g.valueWithin f inputs b id := by
  induction listed using List.reverseRecOn generalizing a b id with
  | nil => simp at hid
  | append_singleton listed last ih =>
    rw [List.length_append, List.length_singleton] at ha hb
    have hstart : g.AfterProducers listed := by
      intro before x after heq
      exact hl before x (after ++ [last]) (by rw [heq, List.append_assoc, List.cons_append])
    rcases List.mem_append.1 hid with hid | hid
    · exact ih hstart (by omega) (by omega) hid
    · obtain rfl := List.mem_singleton.1 hid
      obtain ⟨a, rfl⟩ : ∃ k, a = k + 1 := ⟨a - 1, by omega⟩
      obtain ⟨b, rfl⟩ : ∃ k, b = k + 1 := ⟨b - 1, by omega⟩
      rw [valueWithin, valueWithin]
      -- the last node reads nodes listed before it, and for those one step less is enough
      apply nodeValue_congr_values
      intro i o ho
      exact ih hstart (by omega) (by omega)
        (hl listed _ [] rfl _ (mem_producers_iff.2 (.of_source? ho)))

/-- The equation that the value of a node solves. -/
theorem Sound.value?_eq (hg : g.Sound) (id : NodeId) :
    g.value? f inputs id = g.nodeValue f inputs (g.value? f inputs) id := by
  have htop := hg.order_isTopological
  have hlen : g.order.length ≤ g.nodes.size := by
    rw [hg.length_order, hg.live, length_liveNodes]
    exact List.countP_le_length.trans (by simp)
  by_cases hc : g.contains id = true
  · exact valueWithin_stable htop.after_producers hlen (Nat.le_succ_of_le hlen)
      ((htop.mem_iff id).2 hc)
  · have hn : g.node? id = none := by simpa [contains] using hc
    cases hs : g.nodes.size <;> simp [value?, hs, valueWithin, nodeValue, hn]

/-- No other values solve the equations. -/
theorem Sound.eq_value? (hg : g.Sound)
    (hv : ∀ id, g.contains id = true → v id = g.nodeValue f inputs v id)
    (hid : g.contains id = true) : v id = g.value? f inputs id := by
  induction id using hg.edge_wf.induction with
  | _ id ih =>
    rw [hv id hid, hg.value?_eq]
    apply nodeValue_congr_values
    intro i o ho
    have he := Edge.of_source? ho
    exact ih o.node he (hg.edge_live he).1

def operands (g : Graph) (inputs : String → Option Memory) (v : NodeId → Option Memory)
    (id : NodeId) (node : Node) : List (Option Memory) :=
  if node.kind = .input then [inputs node.name]
  else (List.range node.kind.numInputs).map fun i => (g.source? ⟨id, i⟩).bind fun o => v o.node

theorem Typed.nodeValue_eq {reads : List Descriptor} {written : Descriptor}
    (h : g.Typed id node.operation reads written) (hn : g.node? id = some node)
    {memories : List Memory} (hm : g.operands inputs v id node = memories.map some) :
    g.nodeValue f inputs v id = node.operation.result? f reads written memories := by
  obtain ⟨htakes, hreads, hwritten⟩ := h
  simp only [nodeValue, hn, Option.bind_eq_bind, Option.bind_some]
  rw [outputDescriptor?_of_node hn] at hwritten
  simp only [operands, source?_of_node hn] at hm
  unfold Node.kind at hm
  cases hop : node.operation with
  | input b =>
    simp only [hop, Operation.kind, if_true] at hm
    obtain _ | ⟨m, _ | ⟨_, _⟩⟩ := memories <;> simp_all [Operation.result?]
  | output b | reshape t =>
    simp only [hop, Operation.kind, OperationKind.numInputs, reduceCtorEq, if_false] at hm
    obtain _ | ⟨m, _ | ⟨_, _⟩⟩ := memories <;> simp_all [Operation.result?]
  | permute p | transpose p =>
    simp only [hop, Operation.kind, OperationKind.numInputs, reduceCtorEq, if_false] at hm
    rw [hop] at htakes hreads
    cases htakes with
    | reorder hp =>
      obtain _ | ⟨m, _ | ⟨_, _⟩⟩ := memories <;>
        simp_all [Operation.result?, Operation.kind, OperationKind.numInputs]
  | addition =>
    simp only [hop, Operation.kind, OperationKind.numInputs, reduceCtorEq, if_false] at hm
    obtain _ | ⟨l, _ | ⟨r, _ | ⟨_, _⟩⟩⟩ := memories <;>
      simp_all [Operation.result?, Operation.kind, List.range_succ]

/-- Every node is of a kind and type on the list of the reference backend. -/
def Supported (g : Graph) : Prop :=
  ∀ id node reads written, g.node? id = some node → g.Typed id node.operation reads written →
    written.dataType ∈ Reference.types node.kind

variable {table : BindingTable} {reads : List Descriptor} {written : Descriptor}

/-- What a connected slot reads: the one output of a node that writes a tensor. -/
theorem Valid.source (hv : g.Valid table) {s : InputSlot} {o : OutputSlot}
    (ho : g.source? s = some o) :
    ∃ producer reads written, g.node? o.node = some producer ∧ producer.kind ≠ .output ∧
      o = ⟨o.node, 0⟩ ∧ g.Typed o.node producer.operation reads written ∧
      g.inputDescriptor? s = some written := by
  obtain ⟨producer, hp, hlt⟩ := hv.sound.linked.hasOutput_of_source? ho
  obtain ⟨hkind, hindex⟩ := (hv.sound.lt_outputs_iff hp).1 hlt
  have hzero : o = ⟨o.node, 0⟩ := by rw [← hindex]
  obtain ⟨reads, written, ht⟩ := hv.typed o.node producer hp
  refine ⟨producer, reads, written, hp, hkind, hzero, ht, ?_⟩
  rw [inputDescriptor?_eq, ho, Option.bind_some, hzero]
  exact ht.written_eq hkind

end Graph

def BindingTable.Fed (table : BindingTable) (inputs : String → Option Memory) : Prop :=
  ∀ b ∈ table.inputs, ∃ m, inputs b.name = some m ∧ m.extent = b.descriptor.extent

namespace Graph

variable {f : FloatAddition} {g : Graph} {inputs : String → Option Memory} {id : NodeId}
  {node : Node} {table : BindingTable} {reads : List Descriptor} {written : Descriptor}

theorem Valid.fed (hv : g.Valid table) (hf : table.Fed inputs) (hn : g.node? id = some node)
    (hk : node.kind = .input) (ht : g.Typed id node.operation reads written) :
    ∃ m, inputs node.name = some m ∧ m.extent = written.extent := by
  have hb := ht.boundary? hv.sound hn
  cases hop : node.operation with
  | input b =>
    rw [hop] at hb
    exact hf _ (hv.mem_side_iff (d := .input).2 ⟨node, hn, hb⟩)
  | _ => simp [Node.kind, hop, Operation.kind] at hk

/-- On a valid graph whose inputs are supplied every node has a value. By induction along
the edges: what a node reads has values that fit. -/
theorem Valid.value (hv : g.Valid table) (hs : g.Supported) (hf : table.Fed inputs)
    (hn : g.node? id = some node) (ht : g.Typed id node.operation reads written) :
    ∃ memories m, g.operands inputs (g.value? f inputs) id node = memories.map some ∧
      memories.map Memory.extent = reads.map Descriptor.extent ∧
      node.operation.result? f reads written memories = some m ∧
      g.value? f inputs id = some m ∧ m.extent = written.extent := by
  induction id using hv.sound.edge_wf.induction generalizing node reads written with
  | _ id ih =>
    obtain ⟨memories, hoperands, hfit⟩ : ∃ memories : List Memory,
        g.operands inputs (g.value? f inputs) id node = memories.map some ∧
          memories.map Memory.extent = reads.map Descriptor.extent := by
      unfold operands
      by_cases hk : node.kind = .input
      · obtain ⟨m, hm, he⟩ := hv.fed hf hn hk ht
        have hreads := ht.takes.reads_of_boundary (.inl hk)
        exact ⟨[m], by simp [hk, hm], by simp [hreads, he]⟩
      · rw [if_neg hk]
        refine exists_matched (ht.reads_eq hk) fun i d hd => ?_
        obtain ⟨o, ho, -⟩ := Option.bind_eq_some_iff.1 ((inputDescriptor?_eq _).symm.trans hd)
        obtain ⟨producer, _, _, hp, -, -, hpt, hin⟩ := hv.source ho
        obtain ⟨_, m, -, -, -, hm, he⟩ := ih o.node (.of_source? ho) hp hpt
        rw [hd] at hin
        obtain rfl := Option.some.inj hin
        exact ⟨m, by simp [ho, hm], he⟩
    obtain ⟨m, hresult, he⟩ := ht.takes.exists_result (f := f) (hs id node _ _ hn ht) hfit
    refine ⟨memories, m, hoperands, hfit, hresult, ?_, he⟩
    rw [hv.sound.value?_eq, ht.nodeValue_eq hn hoperands, hresult]

end Graph

end LayerGraph
