import LayerGraph.Network.Load
import LayerGraph.Proofs.Valuation

/-!
# Loading a graph

A valid graph has a plan: a buffer for every output, and for every node a spec that
connects its workload to the buffers it reads and writes and to the caller's tensors. On
the reference backend the plan loads when every node is of a supported type.
-/

set_option autoImplicit false

namespace LayerGraph

namespace Plan

variable {buffers : List PlanBuffer} {slot : OutputSlot} {binding : TensorBinding}

theorem bufferBinding?_spec (h : bufferBinding? buffers slot = some binding) :
    ∃ k d, binding = ⟨.intermediate k, d⟩ ∧ buffers[k]? = some ⟨slot, d⟩ := by
  obtain ⟨⟨buffer, k⟩, hf, rfl⟩ := Option.map_eq_some_iff.1 h
  have hk := List.mem_zipIdx_iff_getElem?.1 (List.mem_of_find?_eq_some hf)
  have hslot : buffer.slot = slot := by simpa using List.find?_some hf
  exact ⟨k, buffer.descriptor, rfl, by rw [hk, ← hslot]⟩

theorem getElem?_of_bufferBinding? {k : Nat} {d : Descriptor}
    (h : bufferBinding? buffers slot = some ⟨.intermediate k, d⟩) :
    buffers[k]? = some ⟨slot, d⟩ := by
  obtain ⟨_, _, heq, hk⟩ := bufferBinding?_spec h
  cases heq
  exact hk

theorem exists_bufferBinding? {d : Descriptor} (h : ⟨slot, d⟩ ∈ buffers) :
    ∃ binding, bufferBinding? buffers slot = some binding := by
  obtain ⟨k, hk⟩ := List.mem_iff_getElem?.1 h
  have hmem : ((⟨slot, d⟩, k) : PlanBuffer × Nat) ∈ buffers.zipIdx :=
    List.mem_zipIdx_iff_getElem?.2 hk
  rw [← Option.isSome_iff_exists, bufferBinding?, Option.isSome_map, List.find?_isSome]
  exact ⟨_, hmem, by simp⟩

end Plan

namespace Graph

variable {g : Graph} {table : BindingTable} {buffers : List PlanBuffer} {id : NodeId} {node : Node}
  {reads : List Descriptor} {written : Descriptor} {spec : WorkloadSpec}

/-- The buffers are those of all described outputs. -/
def Allots (g : Graph) (buffers : List PlanBuffer) : Prop :=
  ∀ buffer, buffer ∈ buffers ↔ g.outputDescriptor? buffer.slot = some buffer.descriptor

theorem Allots.bufferBinding? (hb : g.Allots buffers) {o : OutputSlot} {d : Descriptor}
    (hd : g.outputDescriptor? o = some d) :
    ∃ k, Plan.bufferBinding? buffers o = some ⟨.intermediate k, d⟩ := by
  obtain ⟨binding, hbinding⟩ := Plan.exists_bufferBinding? ((hb ⟨o, d⟩).2 hd)
  obtain ⟨k, d', rfl, hk⟩ := Plan.bufferBinding?_spec hbinding
  have hd' := (hb _).1 (List.mem_of_getElem? hk)
  obtain rfl := Option.some.inj (hd.symm.trans hd')
  exact ⟨k, hbinding⟩

/-- A buffer is described as the output that it holds. -/
theorem Allots.producerBinding? (hb : g.Allots buffers) (node : Node) (index : Nat) :
    Plan.producerBinding? g buffers node index =
      (node.input? index).bind (Plan.bufferBinding? buffers) := by
  refine Option.bind_congr fun producer _ => ?_
  cases hbinding : Plan.bufferBinding? buffers producer with
  | none => simp
  | some binding =>
    obtain ⟨k, d, rfl, hk⟩ := Plan.bufferBinding?_spec hbinding
    have hd : g.outputDescriptor? producer = some d := (hb _).1 (List.mem_of_getElem? hk)
    simp [hd]

theorem mem_orderedNodes (hg : g.Sound) : node ∈ g.orderedNodes ↔ ∃ id, g.node? id = some node := by
  rw [orderedNodes, List.mem_filterMap]
  constructor
  · rintro ⟨id, -, hn⟩
    exact ⟨id, hn⟩
  · rintro ⟨id, hn⟩
    exact ⟨id, (hg.order_isTopological.mem_iff id).2 (contains_iff.2 ⟨node, hn⟩), hn⟩

theorem mem_nodeBuffers (hg : g.Sound) (hn : g.node? id = some node) {own : List PlanBuffer}
    (h : Plan.nodeBuffers node = .ok own) {buffer : PlanBuffer} :
    buffer ∈ own ↔ buffer.slot.node = id ∧
      g.outputDescriptor? buffer.slot = some buffer.descriptor := by
  have hid := hg.node_id id node hn
  rw [mem_of_mapM_eq_ok h]
  constructor
  · rintro ⟨⟨out, index⟩, hm, hb⟩
    have hout := List.mem_zipIdx_iff_getElem?.1 hm
    cases hd : out.descriptor with
    | none => simp [hd] at hb
    | some d =>
      simp only [hd, Except.ok.injEq] at hb
      subst hb
      simp [hid, outputDescriptor?_of_node hn, Node.outputDescriptor?, hout, hd]
  · rintro ⟨hslot, hd⟩
    rw [outputDescriptor?, hslot, hn, Option.bind_some, Node.outputDescriptor?] at hd
    obtain ⟨out, hout, hd⟩ := Option.bind_eq_some_iff.1 hd
    refine ⟨(out, buffer.slot.index), List.mem_zipIdx_iff_getElem?.2 hout, ?_⟩
    simp only [hd, hid, ← hslot]

theorem Valid.exists_nodeBuffers (hv : g.Valid table) (hn : g.node? id = some node) :
    ∃ own, Plan.nodeBuffers node = .ok own := by
  obtain ⟨_, _, ht⟩ := hv.typed id node hn
  have hc := (checkComplete_eq_ok_iff.1 (ht.checkComplete hv.sound hn)).2
  refine exists_mapM_eq_ok fun ⟨out, index⟩ hm => ?_
  have hout := List.mem_of_getElem? (List.mem_zipIdx_iff_getElem?.1 hm)
  obtain ⟨d, hd⟩ := Option.isSome_iff_exists.1 (hc out hout)
  exact ⟨⟨⟨node.id, index⟩, d⟩, by simp [hd]⟩

theorem allots_of_groups (hg : g.Sound) {groups : List (List PlanBuffer)}
    (h : g.orderedNodes.mapM Plan.nodeBuffers = .ok groups) : g.Allots groups.flatten := by
  intro buffer
  rw [List.mem_flatten]
  constructor
  · rintro ⟨own, hown, hb⟩
    obtain ⟨node, hm, hn⟩ := (mem_of_mapM_eq_ok h).1 hown
    obtain ⟨id, hnode⟩ := (mem_orderedNodes hg).1 hm
    exact ((mem_nodeBuffers hg hnode hn).1 hb).2
  · intro hd
    obtain ⟨node, hn, -⟩ := Option.bind_eq_some_iff.1 hd
    have hmem := (mem_orderedNodes hg).2 ⟨_, hn⟩
    have hmap := mapM_eq_ok_iff.1 h
    obtain ⟨own, hown, hb⟩ :=
      List.mem_map.1 (hmap ▸ List.mem_map_of_mem (f := Plan.nodeBuffers) hmem)
    exact ⟨own, hown, (mem_nodeBuffers hg hn hb.symm).2 ⟨rfl, hd⟩⟩

structure Connects (g : Graph) (table : BindingTable) (buffers : List PlanBuffer) (id : NodeId)
    (node : Node) (reads : List Descriptor) (written : Descriptor) (spec : WorkloadSpec) :
    Prop where
  operation : spec.operation = node.operation
  reads_eq : spec.inputs.map (·.descriptor) = reads
  written_eq : spec.outputs.map (·.descriptor) = [written]
  caller_input : node.kind = .input → ∃ j b, table.inputs[j]? = some b ∧ b.node = id ∧
    spec.inputs.map (·.slot) = [.boundInput j]
  inputs : node.kind ≠ .input →
    (List.range node.kind.numInputs).map
      (fun i => (g.source? ⟨id, i⟩).bind (Plan.bufferBinding? buffers)) = spec.inputs.map some
  caller_output : node.kind = .output → ∃ j b, table.outputs[j]? = some b ∧ b.node = id ∧
    spec.outputs.map (·.slot) = [.boundOutput j]
  outputs : node.kind ≠ .output → ∃ k,
    Plan.bufferBinding? buffers ⟨id, 0⟩ = some ⟨.intermediate k, written⟩ ∧
      spec.outputs.map (·.slot) = [.intermediate k]

section Step

variable (hv : g.Valid table) (hb : g.Allots buffers) (hn : g.node? id = some node)
  (ht : g.Typed id node.operation reads written)

include hv hn

theorem boundaryBinding_ok {d : Direction} {b : Binding} (hbound : g.boundary? node = some (d, b))
    (hid : b.node = id) : ∃ j, (table.side d)[j]? = some b ∧
      Plan.boundaryBinding table d node = .ok ⟨Plan.boundarySlot d j, b.descriptor⟩ := by
  obtain ⟨j, hj⟩ := List.mem_iff_getElem?.1 (hv.mem_side_iff.2 ⟨node, hid ▸ hn, hbound⟩)
  have hnode := hv.sound.node_id id node hn
  refine ⟨j, hj, ?_⟩
  have hfind :=
    find?_zipIdx_eq_some (p := fun binding => binding.node == node.id) hj (by simp [hid, hnode])
      fun i a hi ha => hv.index_unique hi hj (.inr (by rw [hid, ← hnode]; simpa using ha))
  unfold Plan.boundaryBinding
  split
  · rename_i heq
    cases heq.symm.trans hfind
    rfl
  · rename_i heq
    cases heq.symm.trans hfind

include ht

theorem stepInputs_of_input (buffers : List PlanBuffer) (hk : node.kind = .input) :
    ∃ j b, table.inputs[j]? = some b ∧ b.node = id ∧ reads = [written] ∧
      Plan.stepInputs g table buffers node = .ok [⟨.boundInput j, written⟩] := by
  have hbound := ht.boundary? hv.sound hn
  have hreads := ht.takes.reads_of_boundary (.inl hk)
  unfold Node.kind at hk
  cases hop : node.operation with
  | input b =>
    rw [hop] at hbound
    obtain ⟨j, hj, hbinding⟩ := boundaryBinding_ok hv hn hbound rfl
    refine ⟨j, _, hj, rfl, hreads, ?_⟩
    rw [Plan.stepInputs, hop]
    simp only [hbinding]
    rfl
  | _ => simp [hop, Operation.kind] at hk

theorem stepOutputs_of_output (buffers : List PlanBuffer) (hk : node.kind = .output) :
    ∃ j b, table.outputs[j]? = some b ∧ b.node = id ∧
      Plan.stepOutputs table buffers node = .ok [⟨.boundOutput j, written⟩] := by
  have hbound := ht.boundary? hv.sound hn
  unfold Node.kind at hk
  cases hop : node.operation with
  | output b =>
    rw [hop] at hbound
    obtain ⟨j, hj, hbinding⟩ := boundaryBinding_ok hv hn hbound rfl
    refine ⟨j, _, hj, rfl, ?_⟩
    rw [Plan.stepOutputs, hop]
    simp only [hbinding]
    rfl
  | _ => simp [hop, Operation.kind] at hk

include hb

theorem stepInputs_of_reader (hk : node.kind ≠ .input) :
    ∃ bindings, (List.range node.kind.numInputs).map
        (fun i => (g.source? ⟨id, i⟩).bind (Plan.bufferBinding? buffers)) = bindings.map some ∧
      bindings.map (·.descriptor) = reads ∧
      Plan.stepInputs g table buffers node = .ok bindings := by
  obtain ⟨bindings, hfound, hreads⟩ : ∃ bindings : List TensorBinding,
      (List.range node.kind.numInputs).map
        (fun i => (g.source? ⟨id, i⟩).bind (Plan.bufferBinding? buffers)) = bindings.map some ∧
      bindings.map (·.descriptor) = reads.map fun d => d :=
    exists_matched (ht.reads_eq hk) fun i d hd => by
      rw [inputDescriptor?_eq] at hd
      obtain ⟨o, ho, hd⟩ := Option.bind_eq_some_iff.1 hd
      obtain ⟨k, hbinding⟩ := hb.bufferBinding? hd
      exact ⟨_, by rw [ho, Option.bind_some, hbinding], rfl⟩
  refine ⟨bindings, hfound, by simpa using hreads, ?_⟩
  have hstep : Plan.stepInputs g table buffers node =
      (List.range node.inputs.length).mapM (Plan.inputBinding g buffers node) := by
    unfold Node.kind at hk
    cases hop : node.operation <;> simp_all [Plan.stepInputs, Operation.kind]
  rw [hstep, hv.sound.length_inputs hn]
  refine mapM_eq_ok_of_map_some hfound fun i binding hbinding => ?_
  rw [source?_of_node hn] at hbinding
  simp only [Plan.inputBinding, hb.producerBinding?, hbinding]

theorem stepOutputs_of_writer (hk : node.kind ≠ .output) :
    ∃ k, Plan.bufferBinding? buffers ⟨id, 0⟩ = some ⟨.intermediate k, written⟩ ∧
      Plan.stepOutputs table buffers node = .ok [⟨.intermediate k, written⟩] := by
  obtain ⟨k, hbinding⟩ := hb.bufferBinding? (ht.written_eq hk)
  refine ⟨k, hbinding, ?_⟩
  have hlen : node.outputs.length = 1 := by
    rw [hv.sound.length_outputs hn]
    cases hkind : node.kind <;> simp_all [OperationKind.numOutputs]
  have hstep : Plan.stepOutputs table buffers node =
      (List.range node.outputs.length).mapM (Plan.outputBinding buffers node) := by
    unfold Node.kind at hk
    cases hop : node.operation <;> simp_all [Plan.stepOutputs, Operation.kind]
  have hout : Plan.outputBinding buffers node 0 = .ok ⟨.intermediate k, written⟩ := by
    rw [Plan.outputBinding, hv.sound.node_id id node hn, hbinding]
  rw [hstep, hlen, mapM_eq_ok_iff]
  simp [hout]

/-- What a step reads: the caller's tensor at an input, and buffers everywhere else. -/
theorem stepInputs_ok : ∃ inputs : List TensorBinding,
    Plan.stepInputs g table buffers node = .ok inputs ∧ inputs.map (·.descriptor) = reads ∧
      (node.kind = .input → ∃ j b, table.inputs[j]? = some b ∧ b.node = id ∧
        inputs.map (·.slot) = [.boundInput j]) ∧
      (node.kind ≠ .input → (List.range node.kind.numInputs).map
        (fun i => (g.source? ⟨id, i⟩).bind (Plan.bufferBinding? buffers)) = inputs.map some) := by
  by_cases hk : node.kind = .input
  · obtain ⟨j, b, hj, hb, rfl, hin⟩ := stepInputs_of_input hv hn ht buffers hk
    exact ⟨_, hin, rfl, fun _ => ⟨j, b, hj, hb, rfl⟩, fun h => absurd hk h⟩
  · obtain ⟨inputs, hfound, hreads, hin⟩ := stepInputs_of_reader hv hb hn ht hk
    exact ⟨inputs, hin, hreads, fun h => absurd h hk, fun _ => hfound⟩

/-- What a step writes: the caller's tensor at an output, and its own buffer everywhere else. -/
theorem stepOutputs_ok : ∃ outputs : List TensorBinding,
    Plan.stepOutputs table buffers node = .ok outputs ∧
      outputs.map (·.descriptor) = [written] ∧
      (node.kind = .output → ∃ j b, table.outputs[j]? = some b ∧ b.node = id ∧
        outputs.map (·.slot) = [.boundOutput j]) ∧
      (node.kind ≠ .output → ∃ k,
        Plan.bufferBinding? buffers ⟨id, 0⟩ = some ⟨.intermediate k, written⟩ ∧
          outputs.map (·.slot) = [.intermediate k]) := by
  by_cases hk : node.kind = .output
  · obtain ⟨j, b, hj, hb, hout⟩ := stepOutputs_of_output hv hn ht buffers hk
    exact ⟨_, hout, rfl, fun _ => ⟨j, b, hj, hb, rfl⟩, fun h => absurd hk h⟩
  · obtain ⟨k, hbinding, hout⟩ := stepOutputs_of_writer hv hb hn ht hk
    exact ⟨_, hout, rfl, fun h => absurd h hk, fun _ => ⟨k, hbinding, rfl⟩⟩

omit hv hb hn in
theorem decidingDescriptor?_eq {spec : WorkloadSpec} (hop : spec.operation = node.operation)
    (hreads : spec.inputs.map (·.descriptor) = reads)
    (hwritten : spec.outputs.map (·.descriptor) = [written]) :
    Plan.decidingDescriptor? spec = some written := by
  rw [Plan.decidingDescriptor?, hop]
  split
  · rename_i b hout
    have hboundary := ht.takes.reads_of_boundary (.inr (by rw [hout]; rfl))
    rw [WorkloadSpec.inputDescriptor?, ← List.getElem?_map, hreads, hboundary]
    rfl
  · rw [WorkloadSpec.outputDescriptor?, ← List.getElem?_map, hwritten]
    rfl

theorem step_ok : ∃ spec, Plan.step g table buffers node = .ok ⟨spec, written.dataType⟩ ∧
    g.Connects table buffers id node reads written spec := by
  obtain ⟨inputs, hin, hreads, hcaller, hinputs⟩ := stepInputs_ok hv hb hn ht
  obtain ⟨outputs, hout, hwritten, hcaller', houtputs⟩ := stepOutputs_ok hv hb hn ht
  let spec : WorkloadSpec := ⟨node.id, node.name, node.operation, inputs, outputs⟩
  have hdeciding : Plan.decidingDescriptor? spec = some written :=
    decidingDescriptor?_eq ht rfl hreads hwritten
  refine ⟨spec, ?_, rfl, hreads, hwritten, hcaller, hinputs, hcaller', houtputs⟩
  rw [Plan.step, hin, hout]
  simp only [bind, Except.bind, spec, hdeciding]
  rfl

end Step

theorem map_node?_order (hg : g.Sound) : g.order.map g.node? = g.orderedNodes.map some :=
  map_eq_map_filterMap fun id hid => (hg.order_isTopological.mem_iff id).1 hid

theorem Sound.of_plan (hg : g.Sound) {plan : Plan} (h : g.plan = .ok plan) :
    g.Valid plan.bindings ∧ g.Allots plan.buffers ∧
      g.orderedNodes.mapM (Plan.step g plan.bindings plan.buffers) = .ok plan.steps := by
  obtain ⟨_, hvalid, h⟩ := except_bind_eq_ok_iff.1 h
  obtain ⟨bindings, hbindings, h⟩ := except_bind_eq_ok_iff.1 h
  obtain ⟨groups, hgroups, h⟩ := except_bind_eq_ok_iff.1 h
  obtain ⟨steps, hsteps, h⟩ := except_bind_eq_ok_iff.1 h
  cases h
  obtain ⟨table, hv⟩ := hg.validate_eq_ok_iff.1 hvalid
  exact ⟨⟨hg, hv.typed, hbindings⟩, allots_of_groups hg hgroups, hsteps⟩

theorem Valid.exists_plan (hv : g.Valid table) : ∃ plan, g.plan = .ok plan := by
  have hg := hv.sound
  obtain ⟨groups, hgroups⟩ := exists_mapM_eq_ok fun node (hm : node ∈ g.orderedNodes) => by
    obtain ⟨id, hn⟩ := (mem_orderedNodes hg).1 hm
    exact hv.exists_nodeBuffers hn
  have hb := allots_of_groups hg hgroups
  obtain ⟨steps, hsteps⟩ := exists_mapM_eq_ok fun node (hm : node ∈ g.orderedNodes) => by
    obtain ⟨id, hn⟩ := (mem_orderedNodes hg).1 hm
    obtain ⟨_, _, ht⟩ := hv.typed id node hn
    obtain ⟨spec, hstep, -⟩ := step_ok hv hb hn ht
    exact ⟨_, hstep⟩
  refine ⟨⟨table, groups.flatten, steps⟩, ?_⟩
  rw [plan, hg.validate_eq_ok_iff.2 ⟨table, hv⟩, hv.bindings, hgroups]
  simp only [bind, Except.bind, hsteps]
  rfl

/-- A step of a plan: the workload of a node, connected as the graph connects the node. -/
def Planned (g : Graph) (table : BindingTable) (buffers : List PlanBuffer) (id : NodeId)
    (step : PlanStep) : Prop :=
  ∃ node reads written, g.node? id = some node ∧ g.Typed id node.operation reads written ∧
    g.Connects table buffers id node reads written step.spec ∧ step.spec.name = node.name ∧
    step.dataType = written.dataType

theorem name_of_step {step : PlanStep} (h : Plan.step g table buffers node = .ok step) :
    step.spec.name = node.name := by
  obtain ⟨inputs, -, h⟩ := except_bind_eq_ok_iff.1 h
  obtain ⟨outputs, -, h⟩ := except_bind_eq_ok_iff.1 h
  dsimp only at h
  split at h
  · cases h
    rfl
  · cases h

/-- The steps of a plan stand in the order of the graph. -/
theorem Sound.planned (hg : g.Sound) {plan : Plan} (h : g.plan = .ok plan) :
    List.Forall₂ (g.Planned plan.bindings plan.buffers) g.order plan.steps := by
  obtain ⟨hv, hb, hsteps⟩ := hg.of_plan h
  have hall : List.Forall₂ (fun id step => ∃ node step', g.node? id = some node ∧
      Plan.step g plan.bindings plan.buffers node = .ok step' ∧ some step' = some step)
      g.order plan.steps := by
    simpa using forall₂_of_maps (map_node?_order hg) (mapM_eq_ok_iff.1 hsteps)
      (m := Except.ok (ε := GraphError)) rfl
  refine hall.imp fun id step ⟨node, step', hn, hstep, hsame⟩ => ?_
  cases hsame
  obtain ⟨reads, written, ht⟩ := hv.typed id node hn
  obtain ⟨spec, hspec, hconnects⟩ := step_ok hv hb hn ht
  have hname := name_of_step hstep
  cases hspec.symm.trans hstep
  exact ⟨node, reads, written, hn, ht, hconnects, hname, rfl⟩

end Graph

namespace Network

variable {f : FloatAddition} {g : Graph} {n : Network} {registry : Registry} {backend : BackendId}

theorem createAll_eq_iff {steps : List PlanStep} {workloads : List Workload} :
    createAll registry backend steps = (workloads, none) ↔
      steps.map (fun step => registry.create step.spec backend step.dataType) =
        workloads.map .ok := by
  induction steps generalizing workloads with
  | nil => cases workloads <;> simp [createAll]
  | cons step rest ih =>
    rw [createAll]
    cases hc : registry.create step.spec backend step.dataType with
    | error cause => cases workloads <;> simp [hc]
    | ok w =>
      cases workloads with
      | nil => simp
      | cons w' ws =>
        rw [List.map_cons, List.map_cons, hc, List.cons.injEq, ← ih]
        simp only [Prod.ext_iff, List.cons.injEq, Except.ok.injEq, and_assoc]

theorem load_eq_ok_iff : (load g backend registry).1 = .ok n ↔
    ∃ plan, g.plan = .ok plan ∧ createAll registry backend plan.steps = (n.workloads, none) ∧
      n = ⟨backend, plan.bindings, n.workloads, plan.buffers.map zeroedBuffer⟩ := by
  rw [load]
  cases hp : g.plan with
  | error e => simp
  | ok plan =>
    rcases hc : createAll registry backend plan.steps with ⟨workloads, failure⟩
    cases failure with
    | some e => simp [hc]
    | none =>
      simp only [hc, Except.ok.injEq, exists_eq_left', Prod.mk.injEq, and_true]
      constructor
      · rintro rfl
        exact ⟨rfl, rfl⟩
      · rintro ⟨rfl, hn⟩
        exact hn.symm

def Realizes (f : FloatAddition) (g : Graph) (table : BindingTable) (buffers : List PlanBuffer)
    (id : NodeId) (w : Workload) : Prop :=
  ∃ node reads written, g.node? id = some node ∧ g.Typed id node.operation reads written ∧
    g.Connects table buffers id node reads written w.spec ∧ w.Computes f reads written

/-- A network that runs a graph: workloads in order, and buffers that fit. -/
structure Serves (f : FloatAddition) (g : Graph) (buffers : List PlanBuffer) (n : Network) :
    Prop where
  valid : g.Valid n.bindings
  supported : g.Supported
  allots : g.Allots buffers
  extents : n.buffers.map Memory.extent = buffers.map (·.descriptor.extent)
  workloads : List.Forall₂ (Realizes f g n.bindings buffers) g.order n.workloads

/-- What the registry creates for a step of the plan is what it has for the type of the node. -/
theorem realizes_of_create {table : BindingTable} {buffers : List PlanBuffer} {id : NodeId}
    {node : Node} {step : PlanStep} {w : Workload} (hv : g.Valid table) (hb : g.Allots buffers)
    (hn : g.node? id = some node) (hstep : Plan.step g table buffers node = .ok step)
    (hw : (referenceBackend f).registry.create step.spec referenceId step.dataType = .ok w) :
    Realizes f g table buffers id w ∧ ∀ reads written,
      g.Typed id node.operation reads written →
        written.dataType ∈ Reference.types node.kind := by
  obtain ⟨reads, written, ht⟩ := hv.typed id node hn
  obtain ⟨spec, hspec, hconnects⟩ := Graph.step_ok hv hb hn ht
  obtain rfl := Except.ok.inj (hspec.symm.trans hstep)
  have htypes := mem_types_of_create hw
  obtain ⟨w', hw', hws, hcomputes⟩ := create_ok (f := f) (hconnects.operation ▸ ht.takes)
    hconnects.reads_eq hconnects.written_eq htypes
  obtain rfl := Except.ok.inj (hw.symm.trans hw')
  refine ⟨⟨node, reads, written, hn, ht, hws ▸ hconnects, hcomputes⟩, fun reads' written' ht' => ?_⟩
  rw [← (ht.unique ht').2]
  simpa [hconnects.operation, Node.kind] using htypes

theorem Serves.of_load (hg : g.Sound)
    (h : (load g referenceId (referenceBackend f).registry).1 = .ok n) :
    ∃ buffers, Serves f g buffers n := by
  obtain ⟨plan, hplan, hcreate, hn⟩ := load_eq_ok_iff.1 h
  obtain ⟨hv, hb, hsteps⟩ := hg.of_plan hplan
  have hall := forall₂_of_maps (Graph.map_node?_order hg) (mapM_eq_ok_iff.1 hsteps)
    (createAll_eq_iff.1 hcreate)
  rw [hn]
  refine ⟨plan.buffers, hv, fun id node reads written hid ht => ?_, hb, ?_,
    hall.imp fun id w ⟨node, step, hnode, hstep, hw⟩ =>
      (realizes_of_create hv hb hnode hstep hw).1⟩
  · have hmem : id ∈ g.order :=
      (hg.order_isTopological.mem_iff id).2 (Graph.contains_iff.2 ⟨node, hid⟩)
    obtain ⟨i, hi, rfl⟩ := List.getElem_of_mem hmem
    obtain ⟨node', step, hnode, hstep, hw⟩ := hall.get hi (hall.length_eq ▸ hi)
    obtain rfl := Option.some.inj (hid.symm.trans hnode)
    exact (realizes_of_create hv hb hid hstep hw).2 reads written ht
  · simp [zeroedBuffer, Descriptor.extent, Function.comp_def]

/-- A valid graph of supported types loads. -/
theorem exists_load {table : BindingTable} (hv : g.Valid table) (hs : g.Supported) :
    ∃ n, (load g referenceId (referenceBackend f).registry).1 = .ok n := by
  obtain ⟨plan, hplan⟩ := hv.exists_plan
  obtain ⟨hv, hb, hsteps⟩ := hv.sound.of_plan hplan
  obtain ⟨workloads, hworkloads⟩ : ∃ workloads, plan.steps.mapM (fun step =>
      (referenceBackend f).registry.create step.spec referenceId step.dataType) =
        .ok workloads := by
    refine exists_mapM_eq_ok fun step hstep => ?_
    obtain ⟨node, hm, hstep⟩ := (mem_of_mapM_eq_ok hsteps).1 hstep
    obtain ⟨id, hnode⟩ := (Graph.mem_orderedNodes hv.sound).1 hm
    obtain ⟨reads, written, ht⟩ := hv.typed id node hnode
    obtain ⟨spec, hspec, hconnects⟩ := Graph.step_ok hv hb hnode ht
    obtain rfl := Except.ok.inj (hspec.symm.trans hstep)
    obtain ⟨w, hw, -⟩ := create_ok (f := f) (hconnects.operation ▸ ht.takes) hconnects.reads_eq
      hconnects.written_eq (hconnects.operation ▸ hs id node reads written hnode ht)
    exact ⟨w, hw⟩
  exact ⟨⟨referenceId, plan.bindings, workloads, plan.buffers.map zeroedBuffer⟩,
    load_eq_ok_iff.2 ⟨plan, hplan, createAll_eq_iff.2 (mapM_eq_ok_iff.1 hworkloads), rfl⟩⟩

end Network

end LayerGraph
