import LayerGraph.Proofs.Execution
import LayerGraph.Workload.Probe

/-!
# Single assignment

The workloads of a network form a program in which every buffer is written once, before
it is read. A slot of a plan belongs to the node that it was given to, and each node has one
step, so no two steps share a slot.
-/

set_option autoImplicit false

namespace LayerGraph

open LayerGraph.Graph

section Related

variable {α β γ : Type} {R : α → β → Prop} {as : List α} {bs : List β}

theorem exists_right_of_forall₂ (h : List.Forall₂ R as bs) {a : α} (ha : a ∈ as) :
    ∃ b ∈ bs, R a b := by
  induction h with
  | nil => simp at ha
  | cons hab _ ih =>
    rcases List.mem_cons.1 ha with rfl | ha
    · exact ⟨_, List.mem_cons_self, hab⟩
    · obtain ⟨b, hb, hR⟩ := ih ha
      exact ⟨b, List.mem_cons_of_mem _ hb, hR⟩

theorem exists_left_of_forall₂ (h : List.Forall₂ R as bs) {b : β} (hb : b ∈ bs) :
    ∃ a ∈ as, R a b :=
  exists_right_of_forall₂ h.flip hb

/-- What is before an item on one side is related to what is before its partner. -/
theorem split_of_forall₂ {before after : List β} {b : β}
    (h : List.Forall₂ R as (before ++ b :: after)) :
    ∃ first a last, as = first ++ a :: last ∧ List.Forall₂ R first before ∧ R a b := by
  induction before generalizing as with
  | nil =>
    obtain ⟨a, last, hab, -, rfl⟩ := List.forall₂_cons_right_iff.1 h
    exact ⟨[], a, last, rfl, .nil, hab⟩
  | cons b' before ih =>
    obtain ⟨a', rest, hab', hrest, rfl⟩ := List.forall₂_cons_right_iff.1 h
    obtain ⟨first, a, last, rfl, hfirst, hab⟩ := ih hrest
    exact ⟨a' :: first, a, last, rfl, .cons hab' hfirst, hab⟩

/-- Items that each belong to the partner of their list are distinct when the partners are. -/
theorem nodup_flatMap_of_owner (h : List.Forall₂ R as bs) (hn : as.Nodup) {items : β → List γ}
    {owner : γ → Option α} (ho : ∀ a b, R a b → ((items b).map owner).Sublist [some a]) :
    (bs.flatMap items).Nodup := by
  have hsub : ((bs.flatMap items).map owner).Sublist (as.map some) := by
    induction h with
    | nil => simp
    | cons hab _ ih =>
      rw [List.flatMap_cons, List.map_append, List.map_cons, ← List.singleton_append]
      exact (ho _ _ hab).append (ih (List.nodup_cons.1 hn).2)
  exact .of_map owner (hsub.nodup (hn.map (Option.some_injective _)))

end Related

def SlotRef.isBuffer : SlotRef → Bool
  | .intermediate _ => true
  | _ => false

namespace WorkloadSpec

def readSlots (s : WorkloadSpec) : List SlotRef := s.inputs.map (·.slot)

/-- Slots that a workload reads and that the caller fills. -/
def callerSlots (s : WorkloadSpec) : List SlotRef := s.readSlots.filter fun slot => !slot.isBuffer

def writtenSlots (s : WorkloadSpec) : List SlotRef := s.outputs.map (·.slot)

end WorkloadSpec

/-- Workloads that write each of the buffers and of the caller's outputs exactly once, read
each of the caller's inputs exactly once, and read from a buffer only what an earlier workload
has written there, as it is described there. The buffers are those of the descriptors. -/
structure SingleAssignment (bindings : BindingTable) (buffers : List Memory)
    (specs : List WorkloadSpec) : Prop where
  written_once : (specs.flatMap (·.writtenSlots)).Perm
    ((List.range buffers.length).map .intermediate ++
      (List.range bindings.outputs.length).map .boundOutput)
  read_once : (specs.flatMap (·.callerSlots)).Perm
    ((List.range bindings.inputs.length).map .boundInput)
  written_before : ∀ before spec after, specs = before ++ spec :: after →
    ∀ b ∈ spec.inputs, b.slot.isBuffer = true → ∃ earlier ∈ before, b ∈ earlier.outputs
  allocated : ∀ spec ∈ specs, ∀ b ∈ spec.inputs ++ spec.outputs, ∀ k, b.slot = .intermediate k →
    buffers[k]? = some (.zeroed b.descriptor.dataType.storage b.descriptor.numElements)

namespace Graph

variable {g : Graph} {table : BindingTable} {buffers : List PlanBuffer} {id : NodeId} {node : Node}

theorem map_id_orderedNodes (hg : g.Sound) : g.orderedNodes.map (·.id) = g.order := by
  have hids : g.order.map some = (g.orderedNodes.map (·.id)).map some := by
    calc g.order.map some
        = g.order.map fun id => (g.node? id).map (·.id) := by
          apply List.map_congr_left
          intro id hid
          obtain ⟨node, hn⟩ := contains_iff.1 ((hg.order_isTopological.mem_iff id).1 hid)
          simp [hn, hg.node_id id node hn]
      _ = (g.orderedNodes.map (·.id)).map some := by
          simpa [Function.comp_def] using
            congrArg (List.map (Option.map (·.id))) (map_node?_order hg)
  exact (List.map_injective_iff.2 (Option.some_injective _) hids).symm

theorem slots_of_nodeBuffers {own : List PlanBuffer} (h : Plan.nodeBuffers node = .ok own) :
    own.map (·.slot) = (List.range node.outputs.length).map fun i => ⟨node.id, i⟩ := by
  have hslots : own.map (·.slot) = node.outputs.zipIdx.map fun p => ⟨node.id, p.2⟩ := by
    refine map_eq_map_of_mapM h fun ⟨out, index⟩ buffer hb => ?_
    cases hd : out.descriptor with
    | none => simp [hd] at hb
    | some d =>
      simp only [hd, Except.ok.injEq] at hb
      rw [← hb]
  rw [hslots, List.range_eq_range', ← List.zipIdx_map_snd, List.map_map]
  rfl

/-- No two buffers are given to one output. -/
theorem Sound.nodup_slots (hg : g.Sound) {plan : Plan} (h : g.plan = .ok plan) :
    (plan.buffers.map (·.slot)).Nodup := by
  obtain ⟨_, -, h⟩ := except_bind_eq_ok_iff.1 h
  obtain ⟨bindings, -, h⟩ := except_bind_eq_ok_iff.1 h
  obtain ⟨groups, hgroups, h⟩ := except_bind_eq_ok_iff.1 h
  obtain ⟨steps, -, h⟩ := except_bind_eq_ok_iff.1 h
  cases h
  have hslots : groups.map (List.map (·.slot)) = g.orderedNodes.map fun node =>
      (List.range node.outputs.length).map fun i => (⟨node.id, i⟩ : OutputSlot) :=
    map_eq_map_of_mapM hgroups fun _ _ => slots_of_nodeBuffers
  have hids : (g.orderedNodes.map (·.id)).Nodup := by
    rw [map_id_orderedNodes hg]
    exact hg.order_isTopological.nodup
  rw [List.map_flatten, hslots, ← List.flatMap_def, List.nodup_flatMap]
  refine ⟨fun node _ => ?_, (List.pairwise_map.1 hids).imp fun {a b} hab => ?_⟩
  · exact List.nodup_range.map fun i j hij => (OutputSlot.mk.inj hij).2
  · intro slot ha hb
    obtain ⟨_, -, rfl⟩ := List.mem_map.1 ha
    obtain ⟨_, -, hslot⟩ := List.mem_map.1 hb
    exact hab (OutputSlot.mk.inj hslot).1.symm

def owner? (table : BindingTable) (buffers : List PlanBuffer) : SlotRef → Option NodeId
  | .intermediate k => (buffers[k]?).map (·.slot.node)
  | .boundInput j => (table.inputs[j]?).map (·.node)
  | .boundOutput j => (table.outputs[j]?).map (·.node)

variable {reads : List Descriptor} {written : Descriptor} {spec : WorkloadSpec}

theorem Connects.owner_written (hc : g.Connects table buffers id node reads written spec) :
    (spec.writtenSlots.map (owner? table buffers)).Sublist [some id] := by
  by_cases hk : node.kind = .output
  · obtain ⟨j, b, hj, rfl, hslots⟩ := hc.caller_output hk
    simp [WorkloadSpec.writtenSlots, hslots, owner?, hj]
  · obtain ⟨k, hbinding, hslots⟩ := hc.outputs hk
    simp [WorkloadSpec.writtenSlots, hslots, owner?, Plan.getElem?_of_bufferBinding? hbinding]

/-- What a node other than an output writes: its own buffer, as it is described there. -/
theorem Connects.outputs_eq (hc : g.Connects table buffers id node reads written spec)
    (hk : node.kind ≠ .output) : ∃ b, Plan.bufferBinding? buffers ⟨id, 0⟩ = some b ∧
      spec.outputs = [b] := by
  obtain ⟨k, hbinding, hslots⟩ := hc.outputs hk
  obtain ⟨b, houtputs, hslot⟩ := List.map_eq_singleton_iff.1 hslots
  have hwritten := hc.written_eq
  rw [houtputs, List.map_singleton, List.singleton_inj] at hwritten
  exact ⟨b, by rw [hbinding, ← hslot, ← hwritten], houtputs⟩

/-- What a node other than an input reads: buffers of its sources, as described there. -/
theorem Connects.source_of_mem (hc : g.Connects table buffers id node reads written spec)
    (hk : node.kind ≠ .input) {b : TensorBinding} (hb : b ∈ spec.inputs) :
    ∃ i o, g.source? ⟨id, i⟩ = some o ∧ Plan.bufferBinding? buffers o = some b := by
  have hsome : some b ∈ spec.inputs.map some := List.mem_map_of_mem hb
  rw [← hc.inputs hk] at hsome
  obtain ⟨i, -, hi⟩ := List.mem_map.1 hsome
  obtain ⟨o, ho, hbinding⟩ := Option.bind_eq_some_iff.1 hi
  exact ⟨i, o, ho, hbinding⟩

theorem Connects.not_isBuffer (hc : g.Connects table buffers id node reads written spec)
    (hk : node.kind = .input) {b : TensorBinding} (hb : b ∈ spec.inputs) :
    b.slot.isBuffer = false := by
  obtain ⟨j, _, -, -, hslots⟩ := hc.caller_input hk
  have hslot : b.slot ∈ spec.inputs.map (·.slot) := List.mem_map_of_mem hb
  rw [hslots, List.mem_singleton] at hslot
  rw [hslot]
  rfl

/-- Only input nodes read from the caller. -/
theorem Connects.callerSlots_eq (hc : g.Connects table buffers id node reads written spec)
    (hk : node.kind ≠ .input) : spec.callerSlots = [] := by
  rw [WorkloadSpec.callerSlots, List.filter_eq_nil_iff]
  intro slot hslot
  obtain ⟨b, hb, rfl⟩ := List.mem_map.1 hslot
  obtain ⟨_, _, -, hbinding⟩ := hc.source_of_mem hk hb
  obtain ⟨k, d, rfl, -⟩ := Plan.bufferBinding?_spec hbinding
  simp [SlotRef.isBuffer]

theorem Connects.owner_read (hc : g.Connects table buffers id node reads written spec) :
    (spec.callerSlots.map (owner? table buffers)).Sublist [some id] := by
  by_cases hk : node.kind = .input
  · obtain ⟨j, b, hj, rfl, hslots⟩ := hc.caller_input hk
    simp [WorkloadSpec.callerSlots, WorkloadSpec.readSlots, hslots, SlotRef.isBuffer, owner?, hj]
  · simp [hc.callerSlots_eq hk]

/-- The buffers that a workload names are described as it describes them. -/
theorem Connects.buffer_of_mem (hc : g.Connects table buffers id node reads written spec)
    {b : TensorBinding} (hb : b ∈ spec.inputs ++ spec.outputs) {k : Nat}
    (hk : b.slot = .intermediate k) : ∃ o, buffers[k]? = some ⟨o, b.descriptor⟩ := by
  obtain ⟨o, hbinding⟩ : ∃ o, Plan.bufferBinding? buffers o = some b := by
    rcases List.mem_append.1 hb with hb | hb
    · have hkind : node.kind ≠ .input := by
        intro hkind
        simpa [hk, SlotRef.isBuffer] using hc.not_isBuffer hkind hb
      obtain ⟨_, o, -, hbinding⟩ := hc.source_of_mem hkind hb
      exact ⟨o, hbinding⟩
    · have hkind : node.kind ≠ .output := by
        intro hkind
        obtain ⟨j, _, -, -, hslots⟩ := hc.caller_output hkind
        have hslot : b.slot ∈ spec.outputs.map (·.slot) := List.mem_map_of_mem hb
        simp [hslots, hk] at hslot
      obtain ⟨b', hbinding, houtputs⟩ := hc.outputs_eq hkind
      rw [houtputs, List.mem_singleton] at hb
      exact ⟨_, hb ▸ hbinding⟩
  obtain ⟨k', d, rfl, hk'⟩ := Plan.bufferBinding?_spec hbinding
  cases hk
  exact ⟨o, hk'⟩

section Planned

variable {plan : Plan} {slot : SlotRef} (hg : g.Sound) (hp : g.plan = .ok plan)

include hg hp

theorem exists_planned (hid : g.contains id = true) :
    ∃ step ∈ plan.steps, g.Planned plan.bindings plan.buffers id step :=
  exists_right_of_forall₂ (hg.planned hp) ((hg.order_isTopological.mem_iff id).2 hid)

/-- The buffer of an output is written by the node of that output. -/
theorem written_of_buffer {k : Nat} {buffer : PlanBuffer} (hk : plan.buffers[k]? = some buffer) :
    ∃ step ∈ plan.steps, step.spec.writtenSlots = [.intermediate k] := by
  have hd := ((hg.of_plan hp).2.1 buffer).1 (List.mem_of_getElem? hk)
  obtain ⟨node, hn, hd⟩ := Option.bind_eq_some_iff.1 hd
  obtain ⟨_, ho, -⟩ := Option.bind_eq_some_iff.1 hd
  obtain ⟨hkind, hindex⟩ := (hg.lt_outputs_iff hn).1 (List.getElem?_eq_some_iff.1 ho).1
  obtain ⟨step, hstep, node', _, _, hn', -, hc, -⟩ :=
    exists_planned hg hp (contains_iff.2 ⟨node, hn⟩)
  obtain rfl := Option.some.inj (hn.symm.trans hn')
  obtain ⟨k', hbinding, hslots⟩ := hc.outputs hkind
  have hk' := Plan.getElem?_of_bufferBinding? hbinding
  have hsame : k' = k := index_unique_of_nodup (hg.nodup_slots hp) hk' hk (by rw [← hindex])
  exact ⟨step, hstep, hsame ▸ hslots⟩

/-- A tensor of the caller belongs to a boundary node. -/
theorem exists_planned_boundary {d : Direction} {j : Nat} {b : Binding}
    (hj : (plan.bindings.side d)[j]? = some b) : ∃ step ∈ plan.steps, ∃ node reads written,
      node.kind = d.kind ∧
        g.Connects plan.bindings plan.buffers b.node node reads written step.spec := by
  obtain ⟨hv, -, -⟩ := hg.of_plan hp
  obtain ⟨node, hn, hboundary⟩ := hv.mem_side_iff.1 (List.mem_of_getElem? hj)
  obtain ⟨step, hstep, node', reads, written, hn', -, hc, -⟩ :=
    exists_planned hg hp (contains_iff.2 ⟨node, hn⟩)
  obtain rfl := Option.some.inj (hn.symm.trans hn')
  exact ⟨step, hstep, node, reads, written, (boundary?_spec hboundary).2.2, hc⟩

theorem written_of_output {j : Nat} {b : Binding} (hj : plan.bindings.outputs[j]? = some b) :
    ∃ step ∈ plan.steps, step.spec.writtenSlots = [.boundOutput j] := by
  obtain ⟨step, hstep, _, _, _, hk, hc⟩ := exists_planned_boundary hg hp (d := .output) hj
  obtain ⟨j', b', hj', hid, hslots⟩ := hc.caller_output hk
  obtain rfl := (hg.of_plan hp).1.index_unique (d := .output) hj' hj (.inr hid)
  exact ⟨step, hstep, hslots⟩

theorem read_of_input {j : Nat} {b : Binding} (hj : plan.bindings.inputs[j]? = some b) :
    ∃ step ∈ plan.steps, step.spec.callerSlots = [.boundInput j] := by
  obtain ⟨step, hstep, _, _, _, hk, hc⟩ := exists_planned_boundary hg hp (d := .input) hj
  obtain ⟨j', b', hj', hid, hslots⟩ := hc.caller_input hk
  obtain rfl := (hg.of_plan hp).1.index_unique (d := .input) hj' hj (.inr hid)
  exact ⟨step, hstep, by simp [WorkloadSpec.callerSlots, WorkloadSpec.readSlots, hslots,
    SlotRef.isBuffer]⟩

theorem mem_written_iff : slot ∈ plan.steps.flatMap (·.spec.writtenSlots) ↔
    slot ∈ (List.range plan.buffers.length).map SlotRef.intermediate ++
      (List.range plan.bindings.outputs.length).map .boundOutput := by
  rw [List.mem_flatMap, List.mem_append, List.mem_map, List.mem_map]
  constructor
  · rintro ⟨step, hstep, hslot⟩
    obtain ⟨id, -, node, reads, written, hn, -, hc, -⟩ :=
      exists_left_of_forall₂ (hg.planned hp) hstep
    rw [WorkloadSpec.writtenSlots] at hslot
    by_cases hk : node.kind = .output
    · obtain ⟨j, b, hj, -, hslots⟩ := hc.caller_output hk
      rw [hslots, List.mem_singleton] at hslot
      exact .inr ⟨j, List.mem_range.2 (List.getElem?_eq_some_iff.1 hj).1, hslot.symm⟩
    · obtain ⟨k, hbinding, hslots⟩ := hc.outputs hk
      rw [hslots, List.mem_singleton] at hslot
      have hk := Plan.getElem?_of_bufferBinding? hbinding
      exact .inl ⟨k, List.mem_range.2 (List.getElem?_eq_some_iff.1 hk).1, hslot.symm⟩
  · rintro (⟨k, hk, rfl⟩ | ⟨j, hj, rfl⟩)
    · obtain ⟨step, hstep, hslots⟩ :=
        written_of_buffer hg hp (List.getElem?_eq_getElem (List.mem_range.1 hk))
      exact ⟨step, hstep, hslots ▸ List.mem_singleton_self _⟩
    · obtain ⟨step, hstep, hslots⟩ :=
        written_of_output hg hp (List.getElem?_eq_getElem (List.mem_range.1 hj))
      exact ⟨step, hstep, hslots ▸ List.mem_singleton_self _⟩

theorem mem_read_iff : slot ∈ plan.steps.flatMap (·.spec.callerSlots) ↔
    slot ∈ (List.range plan.bindings.inputs.length).map SlotRef.boundInput := by
  rw [List.mem_flatMap, List.mem_map]
  constructor
  · rintro ⟨step, hstep, hslot⟩
    obtain ⟨id, -, node, reads, written, hn, -, hc, -⟩ :=
      exists_left_of_forall₂ (hg.planned hp) hstep
    have hk : node.kind = .input := by
      by_contra hk
      simp [hc.callerSlots_eq hk] at hslot
    obtain ⟨j, b, hj, -, hslots⟩ := hc.caller_input hk
    have hslot := List.mem_of_mem_filter hslot
    rw [WorkloadSpec.readSlots, hslots, List.mem_singleton] at hslot
    exact ⟨j, List.mem_range.2 (List.getElem?_eq_some_iff.1 hj).1, hslot.symm⟩
  · rintro ⟨j, hj, rfl⟩
    obtain ⟨step, hstep, hslots⟩ :=
      read_of_input hg hp (List.getElem?_eq_getElem (List.mem_range.1 hj))
    exact ⟨step, hstep, hslots ▸ List.mem_singleton_self _⟩

theorem written_perm : (plan.steps.flatMap (·.spec.writtenSlots)).Perm
    ((List.range plan.buffers.length).map SlotRef.intermediate ++
      (List.range plan.bindings.outputs.length).map .boundOutput) := by
  refine (List.perm_ext_iff_of_nodup ?_ ?_).2 fun slot => mem_written_iff hg hp
  · exact nodup_flatMap_of_owner (hg.planned hp) hg.order_isTopological.nodup
      fun id step ⟨_, _, _, _, _, hc, _⟩ => hc.owner_written
  · refine List.Nodup.append ?_ ?_ ?_
    · exact List.nodup_range.map fun _ _ => SlotRef.intermediate.inj
    · exact List.nodup_range.map fun _ _ => SlotRef.boundOutput.inj
    · intro slot hslot hslot'
      obtain ⟨_, -, rfl⟩ := List.mem_map.1 hslot
      simp at hslot'

theorem read_perm : (plan.steps.flatMap (·.spec.callerSlots)).Perm
    ((List.range plan.bindings.inputs.length).map SlotRef.boundInput) := by
  refine (List.perm_ext_iff_of_nodup ?_ ?_).2 fun slot => mem_read_iff hg hp
  · exact nodup_flatMap_of_owner (hg.planned hp) hg.order_isTopological.nodup
      fun id step ⟨_, _, _, _, _, hc, _⟩ => hc.owner_read
  · exact List.nodup_range.map fun _ _ => SlotRef.boundInput.inj

/-- What a step reads from a buffer is what the step of the source has written. -/
theorem written_before {before after : List PlanStep} {step : PlanStep}
    (hsteps : plan.steps = before ++ step :: after) {b : TensorBinding}
    (hb : b ∈ step.spec.inputs) (hbuffer : b.slot.isBuffer = true) :
    ∃ earlier ∈ before, b ∈ earlier.spec.outputs := by
  have hplanned := hg.planned hp
  rw [hsteps] at hplanned
  obtain ⟨first, id, last, horder, hfirst, node, _, _, hn, -, hc, -⟩ := split_of_forall₂ hplanned
  have hk : node.kind ≠ .input := by
    intro hk
    simp [hc.not_isBuffer hk hb] at hbuffer
  obtain ⟨i, o, ho, hbinding⟩ := hc.source_of_mem hk hb
  have hmem : o.node ∈ first :=
    hg.order_isTopological.after_producers first id last horder _
      (mem_producers_iff.2 (.of_source? ho))
  obtain ⟨producer, _, _, hproducer, hkind, hzero, -⟩ := (hg.of_plan hp).1.source ho
  obtain ⟨earlier, hearlier, node', _, _, hn', -, hc', -⟩ := exists_right_of_forall₂ hfirst hmem
  obtain rfl := Option.some.inj (hproducer.symm.trans hn')
  obtain ⟨b', hbinding', houtputs⟩ := hc'.outputs_eq hkind
  rw [hzero, hbinding'] at hbinding
  obtain rfl := Option.some.inj hbinding
  exact ⟨earlier, hearlier, houtputs ▸ List.mem_singleton_self _⟩

theorem singleAssignment : SingleAssignment plan.bindings (plan.buffers.map Network.zeroedBuffer)
    (plan.steps.map (·.spec)) where
  written_once := by simpa [List.flatMap_map] using written_perm hg hp
  read_once := by simpa [List.flatMap_map] using read_perm hg hp
  written_before before spec after hspecs b hb hbuffer := by
    obtain ⟨steps, rest, hsteps, rfl, hrest⟩ := List.map_eq_append_iff.1 hspecs
    obtain ⟨step, last, rfl, rfl, -⟩ := List.map_eq_cons_iff.1 hrest
    obtain ⟨earlier, hearlier, hwritten⟩ := written_before hg hp hsteps hb hbuffer
    exact ⟨earlier.spec, List.mem_map_of_mem hearlier, hwritten⟩
  allocated spec hspec b hb k hk := by
    obtain ⟨step, hstep, rfl⟩ := List.mem_map.1 hspec
    obtain ⟨_, -, _, _, _, -, -, hc, -⟩ := exists_left_of_forall₂ (hg.planned hp) hstep
    obtain ⟨o, ho⟩ := hc.buffer_of_mem hb hk
    rw [List.getElem?_map, ho]
    rfl

end Planned

end Graph

namespace Network

variable {g : Graph} {n : Network} {registry : Registry} {backend : BackendId}

/-- A network is loaded by creating a workload for each spec of a program in single
assignment form. -/
theorem load_singleAssignment (hg : g.Reachable) (h : (load g backend registry).1 = .ok n) :
    ∃ plan, g.plan = .ok plan ∧
      plan.steps.map (fun step => registry.create step.spec backend step.dataType) =
        n.workloads.map .ok ∧
      SingleAssignment n.bindings n.buffers (plan.steps.map (·.spec)) := by
  obtain ⟨plan, hplan, hcreate, hn⟩ := load_eq_ok_iff.1 h
  refine ⟨plan, hplan, createAll_eq_iff.1 hcreate, ?_⟩
  rw [hn]
  exact singleAssignment hg.sound hplan

/-- Registers workloads that declare other inputs than those of their spec. -/
def misreading : Registry :=
  [OperationKind.input, .transpose, .addition, .output].foldl (fun registry kind =>
    registry.register ⟨kind, "probe", .float32⟩ (Probe.constructor .badInput .float32)) .empty

theorem load_singleAssignment_turning :
    let slots (plan : Plan) : List (List SlotRef × List SlotRef) :=
      plan.steps.map fun step => (step.spec.readSlots, step.spec.writtenSlots)
    turning.Reachable ∧ ∃ n plan, (load turning "probe" misreading).1 = .ok n ∧
      turning.plan = .ok plan ∧
      SingleAssignment n.bindings n.buffers (plan.steps.map (·.spec)) ∧
      slots plan =
        [([.boundInput 0], [.intermediate 0]), ([.intermediate 0], [.intermediate 1]),
          ([.intermediate 1, .intermediate 1], [.intermediate 2]),
          ([.intermediate 1], [.boundOutput 0]), ([.intermediate 2], [.boundOutput 1])] := by
  intro slots
  have hg : turning.Reachable := .changed .empty _
  have hload := eq_ok_get (show (load turning "probe" misreading).1.toOption.isSome = true by
    decide +kernel)
  obtain ⟨plan, hplan, -, hsingle⟩ := load_singleAssignment hg hload
  have hslots : turning.plan.toOption.map slots = some (slots plan) := by
    rw [hplan]
    rfl
  exact ⟨hg, _, plan, hload, hplan, hsingle, Option.some.inj (hslots.symm.trans (by decide +kernel))⟩

end Network

end LayerGraph
