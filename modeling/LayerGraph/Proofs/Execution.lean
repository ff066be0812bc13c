import LayerGraph.Proofs.Loading
import LayerGraph.Proofs.Supply

/-!
# Running a network

Workloads run in the order of the graph. When a node's turn comes the buffers of its
producers hold their values, so its workload writes the value of the node: into the
node's own buffer, or to the caller. What buffers and tensors held before does not matter.
-/

set_option autoImplicit false

namespace LayerGraph

namespace RunState

variable {st : RunState} {bound memories : List Memory} {w : Workload} {old m : Memory}
  {k j p : Nat}

theorem readInputs_ok {slots : List SlotRef}
    (h : slots.map (st.input? bound) = memories.map some) :
    st.readInputs bound slots = .ok memories := by
  refine mapM_eq_ok_of_map_some h fun slot memory hm => ?_
  simp [hm]

/-- A workload that writes a buffer changes that buffer alone. -/
theorem step_buffer (hout : w.spec.outputs.map (·.slot) = [.intermediate k])
    (hold : st.buffers[k]? = some old)
    (hread : (w.spec.inputs.map (·.slot)).map (st.input? bound) = memories.map some)
    (hown : SlotRef.intermediate k ∉ w.spec.inputs.map (·.slot))
    (hrun : w.run memories [old] = ⟨[m], .ok ()⟩) :
    step bound w st = ({ st with buffers := st.buffers.set k m }, .ok ()) := by
  have htake : st.takeAll [.intermediate k] =
      ({ st with buffers := st.buffers.set k old.emptied }, ⟨[(k, old)], []⟩) := by
    simp [takeAll, take, hold]
  have hrest : (w.spec.inputs.map (·.slot)).map
      (RunState.input? { st with buffers := st.buffers.set k old.emptied } bound) =
        memories.map some := by
    rw [← hread]
    apply List.map_congr_left
    intro slot hslot
    cases slot with
    | intermediate i =>
      have hne : k ≠ i := by
        rintro rfl
        exact hown hslot
      simp [input?, List.getElem?_set_ne hne]
    | boundInput i => rfl
    | boundOutput i => rfl
  have hconnect : RunState.connect { st with buffers := st.buffers.set k old.emptied }
      ⟨[(k, old)], []⟩ bound w.spec = .ok (memories, [(.buffer k, old)]) := by
    rw [connect, readInputs_ok hrest, hout]
    rfl
  rw [step, hout, htake]
  simp [hconnect, hrun, putAll, put]

/-- A workload that writes to the caller changes that tensor alone, and gives up its place. -/
theorem step_caller (hout : w.spec.outputs.map (·.slot) = [.boundOutput j])
    (hplace : st.places[j]? = some (some p)) (hold : st.outputs[p]? = some old)
    (hread : (w.spec.inputs.map (·.slot)).map (st.input? bound) = memories.map some)
    (hrun : w.run memories [old] = ⟨[m], .ok ()⟩) :
    step bound w st =
      ({ st with places := st.places.set j none, outputs := st.outputs.set p m }, .ok ()) := by
  have htake : st.takeAll [.boundOutput j] =
      ({ st with places := st.places.set j none }, ⟨[], [(p, old)]⟩) := by
    simp [takeAll, take, hplace, hold]
  have hrest : (w.spec.inputs.map (·.slot)).map
      (RunState.input? { st with places := st.places.set j none } bound) = memories.map some := by
    rw [← hread]
    apply List.map_congr_left
    intro slot _
    cases slot <;> rfl
  have hconnect : RunState.connect { st with places := st.places.set j none }
      ⟨[], [(p, old)]⟩ bound w.spec = .ok (memories, [(.caller p, old)]) := by
    rw [connect, readInputs_ok hrest, hout]
    rfl
  rw [step, hout, htake]
  simp [hconnect, hrun, putAll, put]

end RunState

theorem map_extent_set {l : List Memory} {old m : Memory} {k : Nat} (h : l[k]? = some old)
    (he : m.extent = old.extent) : (l.set k m).map Memory.extent = l.map Memory.extent := by
  obtain ⟨hlt, rfl⟩ := List.getElem?_eq_some_iff.1 h
  have hlt' : k < (l.map Memory.extent).length := by simpa using hlt
  rw [List.map_set, he, ← List.getElem_map Memory.extent (h := hlt'), List.set_getElem_self]

/-- What is fixed before a run: the graph with its buffers, the values of the inputs, and
for every output binding its own place among the caller's tensors, one that fits. -/
structure Prepared (g : Graph) (table : BindingTable) (buffers : List PlanBuffer)
    (inputs : String → Option Memory) (bound : List Memory) (places : List Nat)
    (extents : List Extent) : Prop where
  valid : g.Valid table
  supported : g.Supported
  allots : g.Allots buffers
  fed : table.Fed inputs
  bound_eq : ∀ (j : Nat) b, table.inputs[j]? = some b → bound[j]? = inputs b.name
  place : ∀ (j : Nat) b, table.outputs[j]? = some b →
    ∃ p : Nat, places[j]? = some p ∧ extents[p]? = some b.descriptor.extent
  place_injective : ∀ i j p : Nat, places[i]? = some p → places[j]? = some p → i = j

/-- What holds of a run once the nodes in `listed` have been computed. -/
structure Computed (f : FloatAddition) (g : Graph) (table : BindingTable)
    (buffers : List PlanBuffer) (inputs : String → Option Memory) (places : List Nat)
    (extents : List Extent) (listed : List NodeId) (st : RunState) : Prop where
  buffer_extents : st.buffers.map Memory.extent = buffers.map (·.descriptor.extent)
  output_extents : st.outputs.map Memory.extent = extents
  buffered : ∀ id ∈ listed, ∀ (k : Nat) (d : Descriptor),
    Plan.bufferBinding? buffers ⟨id, 0⟩ = some ⟨.intermediate k, d⟩ →
      st.buffers[k]? = g.value? f inputs id
  delivered : ∀ (j p : Nat) (b : Binding), table.outputs[j]? = some b →
    places[j]? = some p → b.node ∈ listed → st.outputs[p]? = g.value? f inputs b.node
  waiting : ∀ (j p : Nat) (b : Binding), table.outputs[j]? = some b →
    places[j]? = some p → b.node ∉ listed → st.places[j]? = some (some p)

namespace Computed

variable {f : FloatAddition} {g : Graph} {table : BindingTable} {buffers : List PlanBuffer}
  {inputs : String → Option Memory} {places : List Nat} {extents : List Extent}
  {listed : List NodeId} {st : RunState} {id : NodeId} {node : Node} {bound : List Memory}
  {w : Workload} {reads : List Descriptor} {written : Descriptor}

section Step

variable (hp : Prepared g table buffers inputs bound places extents)
  (h : Computed f g table buffers inputs places extents listed st)
  (hn : g.node? id = some node) (ht : g.Typed id node.operation reads written)
  (hc : g.Connects table buffers id node reads written w.spec) (hready : g.IsReady listed id)

include hp h hn hc hready

/-- The operands of a node stand where its workload looks for them. -/
theorem operands_read : (w.spec.inputs.map (·.slot)).map (st.input? bound) =
    g.operands inputs (g.value? f inputs) id node := by
  unfold Graph.operands
  by_cases hk : node.kind = .input
  · obtain ⟨j, b, hj, hid, hslots⟩ := hc.caller_input hk
    have hname := (Graph.boundary?_spec (hp.valid.boundary?_of_index (d := .input) hj hid hn)).1
    simp [hk, hslots, RunState.input?, hp.bound_eq j b hj, hname]
  · rw [if_neg hk]
    have hfound : (w.spec.inputs.map (·.slot)).map (st.input? bound) =
        (w.spec.inputs.map some).map fun binding =>
          binding.bind fun b => st.input? bound b.slot := by
      simp [Function.comp_def]
    rw [hfound, ← hc.inputs hk, List.map_map]
    apply List.map_congr_left
    intro i _
    cases ho : g.source? ⟨id, i⟩ with
    | none => simp [ho]
    | some o =>
      obtain ⟨producer, _, d, _, hkind, hzero, hpt, -⟩ := hp.valid.source ho
      obtain ⟨k, hbinding⟩ := hp.allots.bufferBinding? (hpt.written_eq hkind)
      have hlisted := hready.2.2 o.node (Graph.mem_producers_iff.2 (.of_source? ho))
      have hvalue := h.buffered o.node hlisted k d hbinding
      rw [hzero] at ho
      simp [ho, hbinding, RunState.input?, hvalue]

omit h hn hready in
/-- A workload does not read the buffer that it writes. -/
theorem own_buffer_not_read {k : Nat}
    (hk : Plan.bufferBinding? buffers ⟨id, 0⟩ = some ⟨.intermediate k, written⟩) :
    SlotRef.intermediate k ∉ w.spec.inputs.map (·.slot) := by
  intro hmem
  by_cases hkind : node.kind = .input
  · obtain ⟨j, b, -, -, hslots⟩ := hc.caller_input hkind
    simp [hslots] at hmem
  · obtain ⟨binding, hb, hslot⟩ := List.mem_map.1 hmem
    have hsome : some binding ∈ w.spec.inputs.map some := List.mem_map_of_mem hb
    rw [← hc.inputs hkind] at hsome
    obtain ⟨i, -, hi⟩ := List.mem_map.1 hsome
    obtain ⟨o, ho, hbinding⟩ := Option.bind_eq_some_iff.1 hi
    obtain ⟨k', d, rfl, hread⟩ := Plan.bufferBinding?_spec hbinding
    simp only [SlotRef.intermediate.injEq] at hslot
    rw [hslot, Plan.getElem?_of_bufferBinding? hk] at hread
    cases hread
    exact hp.valid.sound.acyclic.not_edge_self id (.of_source? ho)

omit h hc hready in
/-- A node that writes to the caller has no buffer. -/
theorem no_buffer_of_output (hk : node.kind = .output) {k : Nat} {d : Descriptor} :
    Plan.bufferBinding? buffers ⟨id, 0⟩ ≠ some ⟨.intermediate k, d⟩ := by
  intro hbinding
  have hd := (hp.allots _).1 (List.mem_of_getElem? (Plan.getElem?_of_bufferBinding? hbinding))
  have hnil : node.outputs = [] := by
    simpa [hk, OperationKind.numOutputs] using hp.valid.sound.length_outputs hn
  simp [Graph.outputDescriptor?_of_node hn, Node.outputDescriptor?, hnil] at hd

include ht

omit h hc hready in
theorem descriptor_of_output {j : Nat} {b : Binding} (hj : table.outputs[j]? = some b)
    (hid : b.node = id) : b.descriptor = written := by
  have hb := hp.valid.boundary?_of_index (d := .output) hj hid hn
  rw [ht.boundary? hp.valid.sound hn] at hb
  cases hop : node.operation <;> simp_all
  rw [← hb]

/-- Into memory of the right extent a node's workload writes the value of the node. -/
theorem value_written (hw : w.Computes f reads written) {old : Memory}
    (hfits : old.extent = written.extent) :
    ∃ memories m, (w.spec.inputs.map (·.slot)).map (st.input? bound) = memories.map some ∧
      w.run memories [old] = ⟨[m], .ok ()⟩ ∧ g.value? f inputs id = some m ∧
      m.extent = old.extent := by
  obtain ⟨memories, m, hoperands, hfit, hresult, hvalue, hextent⟩ :=
    hp.valid.value (f := f) hp.supported hp.fed hn ht
  obtain ⟨m', hresult', -, hrun⟩ := hw memories old hfit hfits
  rw [hc.operation, hresult] at hresult'
  obtain rfl := Option.some.inj hresult'
  exact ⟨memories, m, (operands_read hp h hn hc hready).trans hoperands, hrun, hvalue,
    hextent.trans hfits.symm⟩

/-- The turn of a node that writes a buffer. -/
theorem step_writer (hk : node.kind ≠ .output) (hw : w.Computes f reads written) :
    ∃ next, RunState.step bound w st = (next, .ok ()) ∧
      Computed f g table buffers inputs places extents (listed ++ [id]) next := by
  obtain ⟨k, hbinding, hslots⟩ := hc.outputs hk
  have hk' := Plan.getElem?_of_bufferBinding? hbinding
  obtain ⟨old, hold, hfits⟩ : ∃ old, st.buffers[k]? = some old ∧ old.extent = written.extent := by
    have := congrArg (fun l => l[k]?) h.buffer_extents
    simpa [hk'] using this
  obtain ⟨memories, m, hread, hrun, hvalue, hextent⟩ :=
    value_written hp h hn ht hc hready hw hfits
  have hown := own_buffer_not_read hp hc hbinding
  have hlt := (List.getElem?_eq_some_iff.1 hold).1
  -- no binding of the output side stands for a node that writes a buffer
  have hboundary : ∀ (j : Nat) b, table.outputs[j]? = some b → b.node ≠ id := by
    intro j b hj hid
    exact hk (Graph.boundary?_spec (hp.valid.boundary?_of_index (d := .output) hj hid hn)).2.2
  refine ⟨_, RunState.step_buffer hslots hold hread hown hrun, ?_, h.output_extents, ?_, ?_, ?_⟩
  · rw [map_extent_set hold hextent]
    exact h.buffer_extents
  · intro other hother i d hi
    by_cases ho : other = id
    · subst ho
      rw [hbinding] at hi
      cases hi
      rw [List.getElem?_set_self hlt, hvalue]
    · -- buffers of distinct nodes are distinct
      have hne : k ≠ i := by
        rintro rfl
        have hslot := hk'.symm.trans (Plan.getElem?_of_bufferBinding? hi)
        cases hslot
        exact ho rfl
      rw [List.getElem?_set_ne hne]
      exact h.buffered other (by simpa [ho] using hother) i d hi
  · intro j p b hj hpj hb
    exact h.delivered j p b hj hpj (by simpa [hboundary j b hj] using hb)
  · intro j p b hj hpj hb
    exact h.waiting j p b hj hpj fun hm => hb (List.mem_append_left _ hm)

/-- The turn of a node that writes to the caller. -/
theorem step_output (hk : node.kind = .output) (hw : w.Computes f reads written) :
    ∃ next, RunState.step bound w st = (next, .ok ()) ∧
      Computed f g table buffers inputs places extents (listed ++ [id]) next := by
  obtain ⟨j, b, hj, hid, hslots⟩ := hc.caller_output hk
  obtain ⟨p, hpj, hpe⟩ := hp.place j b hj
  have hplace := h.waiting j p b hj hpj (hid ▸ hready.2.1)
  have hdescriptor := descriptor_of_output hp hn ht hj hid
  obtain ⟨old, hold, hfits⟩ : ∃ old, st.outputs[p]? = some old ∧ old.extent = written.extent := by
    have := congrArg (fun l => l[p]?) h.output_extents
    simpa [hpe, hdescriptor] using this
  obtain ⟨memories, m, hread, hrun, hvalue, hextent⟩ :=
    value_written hp h hn ht hc hready hw hfits
  have hlt := (List.getElem?_eq_some_iff.1 hold).1
  refine ⟨_, RunState.step_caller hslots hplace hold hread hrun, h.buffer_extents, ?_, ?_, ?_, ?_⟩
  · rw [map_extent_set hold hextent]
    exact h.output_extents
  · intro other hother i d hi
    have ho : other ≠ id := by
      rintro rfl
      exact no_buffer_of_output hp hn hk hi
    exact h.buffered other (by simpa [ho] using hother) i d hi
  · intro j' p' b' hj' hpj' hb'
    by_cases hsame : b'.node = id
    · obtain rfl := hp.valid.index_unique (d := .output) hj hj' (.inr (hid.trans hsame.symm))
      obtain rfl := Option.some.inj (hpj.symm.trans hpj')
      rw [List.getElem?_set_self hlt, hsame, hvalue]
    · -- places of distinct bindings are distinct
      have hne : p ≠ p' := by
        rintro rfl
        obtain rfl := hp.place_injective j j' p hpj hpj'
        obtain rfl := Option.some.inj (hj.symm.trans hj')
        exact hsame hid
      rw [List.getElem?_set_ne hne]
      exact h.delivered j' p' b' hj' hpj' (by simpa [hsame] using hb')
  · intro j' p' b' hj' hpj' hb'
    have hne : j ≠ j' := by
      rintro rfl
      obtain rfl := Option.some.inj (hj.symm.trans hj')
      exact hb' (by simp [hid])
    rw [List.getElem?_set_ne hne]
    exact h.waiting j' p' b' hj' hpj' fun hm => hb' (List.mem_append_left _ hm)

end Step

theorem step (hp : Prepared g table buffers inputs bound places extents)
    (h : Computed f g table buffers inputs places extents listed st)
    (hw : Network.Realizes f g table buffers id w) (hready : g.IsReady listed id) :
    ∃ next, RunState.step bound w st = (next, .ok ()) ∧
      Computed f g table buffers inputs places extents (listed ++ [id]) next := by
  obtain ⟨node, reads, written, hn, ht, hc, hcomputes⟩ := hw
  by_cases hk : node.kind = .output
  · exact step_output hp h hn ht hc hready hk hcomputes
  · exact step_writer hp h hn ht hc hready hk hcomputes

/-- Nodes that come in order after those already computed are computed one by one. -/
theorem steps (hp : Prepared g table buffers inputs bound places extents)
    {rest : List NodeId} {workloads : List Workload}
    (hw : List.Forall₂ (Network.Realizes f g table buffers) rest workloads)
    (h : Computed f g table buffers inputs places extents listed st)
    (ht : g.IsTopological (listed ++ rest)) :
    ∃ final, RunState.steps bound workloads st = (final, .ok ()) ∧
      Computed f g table buffers inputs places extents (listed ++ rest) final := by
  induction hw generalizing listed st with
  | nil => exact ⟨st, rfl, by rwa [List.append_nil]⟩
  | cons hfirst _ ih =>
    obtain ⟨next, hnext, hcomputed⟩ := step hp h hfirst ht.ready_head
    rw [List.append_cons] at ht ⊢
    obtain ⟨final, hfinal, hdone⟩ := ih hcomputed ht
    exact ⟨final, by rw [RunState.steps, hnext]; exact hfinal, hdone⟩

end Computed

/-- A node hands its value to the caller under a name. -/
def Graph.Delivers (g : Graph) (id : NodeId) (name : String) : Prop :=
  ∃ node b, g.node? id = some node ∧ node.operation = .output b ∧ node.name = name

theorem Graph.Valid.delivers_iff {g : Graph} {table : BindingTable} (hv : g.Valid table)
    {b : Binding} (hb : b ∈ table.outputs) {id : NodeId} :
    g.Delivers id b.name ↔ id = b.node := by
  constructor
  · rintro ⟨node, bindingId, hn, hop, hname⟩
    obtain ⟨reads, written, ht⟩ := hv.typed id node hn
    have hbound := ht.boundary? hv.sound hn
    rw [hop] at hbound
    have hmem := (hv.mem_side_iff (d := .output)).2 ⟨node, hn, hbound⟩
    obtain ⟨i, hi⟩ := List.mem_iff_getElem?.1 hmem
    obtain ⟨j, hj⟩ := List.mem_iff_getElem?.1 hb
    obtain rfl := hv.index_unique (d := .output) hi hj (.inl hname)
    rw [← Option.some.inj (hi.symm.trans hj)]
  · rintro rfl
    obtain ⟨node, hn, hbound⟩ := (hv.mem_side_iff (d := .output)).1 hb
    obtain ⟨hname, -, hkind⟩ := Graph.boundary?_spec hbound
    cases hop : node.operation with
    | output bindingId => exact ⟨node, bindingId, hn, hop, hname.symm⟩
    | _ => simp [Node.kind, hop, Operation.kind, Direction.kind] at hkind

namespace Network

variable {f : FloatAddition} {g : Graph} {buffers : List PlanBuffer} {n m : Network}
  {inputs outputs : List NamedTensor} {places : List Nat × List Nat}

theorem Serves.prepared (h : Serves f g buffers n)
    (hb : n.bindings.bindAll inputs outputs = .ok places) :
    Prepared g n.bindings buffers (suppliedMemory inputs)
      (places.1.filterMap fun place => (inputs[place]?).map (·.tensor.memory)) places.2
      (outputs.map (·.tensor.memory.extent)) := by
  obtain ⟨hins, houts⟩ := BindingTable.pairs_of_bindAll hb
  refine ⟨h.valid, h.supported, h.allots, hins.fed h.valid,
    fun j b hj => hins.getElem?_bound h.valid hj, fun j b hj => ?_, fun i j p hi hj => ?_⟩
  · obtain ⟨p, s, hp, hs, -, hextent⟩ := houts.exists_place (d := .output) hj
    exact ⟨p, hp, by simp [hs, hextent]⟩
  · obtain ⟨s, hs, hri⟩ := (houts.place_iff i p).1 hi
    obtain ⟨t, ht, hrj⟩ := (houts.place_iff j p).1 hj
    obtain rfl := Option.some.inj (hs.symm.trans ht)
    exact Except.ok.inj (hri.symm.trans hrj)

/-- An accepted call computes every output, and the network can be called again. -/
theorem Serves.execute (h : Serves f g buffers n)
    (hb : n.bindings.bindAll inputs outputs = .ok places) :
    ∃ final memories, n.execute inputs outputs = ⟨{ n with buffers := final }, memories, .ok ()⟩ ∧
      final.map Memory.extent = n.buffers.map Memory.extent ∧
      memories.length = outputs.length ∧
      ∀ (i : Nat) s, outputs[i]? = some s → ∃ b ∈ n.bindings.outputs, b.name = s.name ∧
        memories[i]? = g.value? f (suppliedMemory inputs) b.node := by
  have hp := h.prepared hb
  have hstart : Computed f g n.bindings buffers (suppliedMemory inputs) places.2
      (outputs.map (·.tensor.memory.extent)) []
      ⟨n.buffers, outputs.map (·.tensor.memory), places.2.map some⟩ := by
    refine ⟨h.extents, by simp, by simp, by simp, fun j p b _ hj _ => ?_⟩
    simp [hj]
  have htop := h.valid.sound.order_isTopological
  obtain ⟨final, hrun, hdone⟩ := Computed.steps hp h.workloads hstart htop
  refine ⟨final.buffers, final.outputs, ?_, ?_, ?_, fun i s hs => ?_⟩
  · simp [Network.execute, hb, hrun]
  · rw [hdone.buffer_extents, h.extents]
  · simpa using congrArg List.length hdone.output_extents
  · have houts := (BindingTable.pairs_of_bindAll hb).2
    obtain ⟨j, hj⟩ := houts.resolves i s hs
    obtain ⟨b, hbj, hname, -⟩ := BindingTable.resolve_eq_ok hj
    have hmem : b ∈ n.bindings.side .output := List.mem_of_getElem? hbj
    obtain ⟨node, hn, -⟩ := h.valid.mem_side_iff.1 hmem
    refine ⟨b, hmem, hname, hdone.delivered j i b hbj ((houts.place_iff j i).2 ⟨s, hs, hj⟩) ?_⟩
    exact (htop.mem_iff b.node).2 (Graph.contains_iff.2 ⟨node, hn⟩)

/-- States that a network comes to by calls, accepted or not. -/
def Leads : Network → Network → Prop :=
  Relation.ReflTransGen fun n m => ∃ inputs outputs, m = (n.execute inputs outputs).network

theorem Serves.after_execute (h : Serves f g buffers n) (inputs outputs : List NamedTensor) :
    Serves f g buffers (n.execute inputs outputs).network ∧
      (n.execute inputs outputs).network.bindings = n.bindings := by
  cases hb : n.bindings.bindAll inputs outputs with
  | error e => simpa [Network.execute, hb] using h
  | ok places =>
    obtain ⟨final, memories, hrun, hextents, -⟩ := h.execute hb
    rw [hrun]
    exact ⟨⟨h.valid, h.supported, h.allots, hextents.trans h.extents, h.workloads⟩, rfl⟩

theorem Serves.leads (h : Serves f g buffers n) (hm : n.Leads m) :
    Serves f g buffers m ∧ m.bindings = n.bindings := by
  induction hm with
  | refl => exact ⟨h, rfl⟩
  | tail _ hstep ih =>
    obtain ⟨inputs, outputs, rfl⟩ := hstep
    have hnext := ih.1.after_execute inputs outputs
    exact ⟨hnext.1, hnext.2.trans ih.2⟩

/-- Whatever was called before and whatever the caller's tensors held, an accepted call leaves
in each of the caller's outputs the value of the one node that delivers under its name. -/
theorem execute_refines_value (hg : g.Reachable)
    (hload : (load g referenceId (referenceBackend f).registry).1 = .ok n) (hm : n.Leads m)
    (hb : m.bindings.bindAll inputs outputs = .ok places) :
    (m.execute inputs outputs).outcome = .ok () ∧
      (m.execute inputs outputs).outputs.length = outputs.length ∧
      (∀ s ∈ inputs, suppliedMemory inputs s.name = some s.tensor.memory) ∧
      ∀ (i : Nat) s, outputs[i]? = some s → ∃ id value,
        (∀ k, g.Delivers k s.name ↔ k = id) ∧
          g.value? f (suppliedMemory inputs) id = some value ∧
          (m.execute inputs outputs).outputs[i]? = some value := by
  obtain ⟨buffers, hn⟩ := Serves.of_load hg.sound hload
  have hserves := (hn.leads hm).1
  obtain ⟨final, memories, hrun, -, hlen, hvalues⟩ := hserves.execute hb
  rw [hrun]
  refine ⟨rfl, hlen, fun s hs => ?_, fun i s hs => ?_⟩
  · exact (BindingTable.pairs_of_bindAll hb).1.suppliedMemory_of_mem hserves.valid hs
  · obtain ⟨b, hmem, hname, hvalue⟩ := hvalues i s hs
    have hi : i < memories.length := hlen ▸ (List.getElem?_eq_some_iff.1 hs).1
    have hheld := List.getElem?_eq_getElem hi
    refine ⟨b.node, memories[i], fun k => ?_, hvalue.symm.trans hheld, hheld⟩
    rw [← hname]
    exact hserves.valid.delivers_iff hmem

def wide : Descriptor := ⟨⟨[2, 3], by decide, by decide, by decide⟩, .float32, none, rfl⟩

def tall : Descriptor := ⟨⟨[3, 2], by decide, by decide, by decide⟩, .float32, none, rfl⟩

def swap : Permutation := ⟨[1, 0], by decide⟩

def turning : Graph := Graph.empty.changed
  [.add (.input 0) "x", .setDescriptor ⟨0, 0⟩ wide, .add (.transpose swap) "t",
    .connect ⟨0, 0⟩ ⟨1, 0⟩, .setDescriptor ⟨1, 0⟩ tall, .add .addition "twice",
    .connect ⟨1, 0⟩ ⟨2, 0⟩, .connect ⟨1, 0⟩ ⟨2, 1⟩, .setDescriptor ⟨2, 0⟩ tall,
    .add (.output 0) "y", .connect ⟨1, 0⟩ ⟨3, 0⟩, .add (.output 1) "z", .connect ⟨2, 0⟩ ⟨4, 0⟩]

def turningNetwork : Network :=
  (load turning referenceId (referenceBackend .nearest).registry).1.toOption.get (by decide +kernel)

theorem execute_refines_value_turning :
    let x : NamedTensor := ⟨"x", ⟨wide, ⟨.f32, #[0x3f800000, 0x40000000, 0x40400000, 0x40800000,
      0x40a00000, 0x40c00000]⟩, by decide⟩⟩
    let ones : NamedTensor := ⟨"x", ⟨wide, ⟨.f32, .replicate 6 0x3f800000⟩, by decide⟩⟩
    let stale (name : String) : NamedTensor := ⟨name, ⟨tall, ⟨.f32, .replicate 6 7⟩, by decide⟩⟩
    let outputs := [stale "z", stale "y"]
    let m := ((turningNetwork.execute [] outputs).network.execute [ones] outputs).network
    let turned : Memory := ⟨.f32, #[0x3f800000, 0x40800000, 0x40000000, 0x40a00000, 0x40400000,
      0x40c00000]⟩
    let twice : Memory := ⟨.f32, #[0x40000000, 0x41000000, 0x40800000, 0x41200000, 0x40c00000,
      0x41400000]⟩
    turning.Reachable ∧
      (load turning referenceId (referenceBackend .nearest).registry).1 = .ok turningNetwork ∧
      turningNetwork.Leads m ∧ m.bindings.bindAll [x] outputs = .ok ([0], [1, 0]) ∧
      (m.execute [x] outputs).outcome = .ok () ∧
      (m.execute [x] outputs).outputs = [twice, turned] := by
  intro x ones stale outputs m turned twice
  have hg : turning.Reachable := .changed .empty _
  have hload := eq_ok_get (show (load turning referenceId
    (referenceBackend .nearest).registry).1.toOption.isSome = true by decide +kernel)
  have hm : turningNetwork.Leads m := .tail (.single ⟨_, _, rfl⟩) ⟨_, _, rfl⟩
  have hb : m.bindings.bindAll [x] outputs = .ok ([0], [1, 0]) := by decide +kernel
  obtain ⟨hok, hlen, -, hvalues⟩ := execute_refines_value hg hload hm hb
  obtain ⟨i, first, hi, hfirst, hzero⟩ := hvalues 0 (stale "z") rfl
  obtain ⟨j, second, hj, hsecond, hone⟩ := hvalues 1 (stale "y") rfl
  obtain rfl := (hi 4).1 ⟨_, 1, rfl, by decide +kernel, by decide +kernel⟩
  obtain rfl := (hj 3).1 ⟨_, 0, rfl, by decide +kernel, by decide +kernel⟩
  have htwice : turning.value? .nearest (suppliedMemory [x]) 4 = some twice := by decide +kernel
  have hturned : turning.value? .nearest (suppliedMemory [x]) 3 = some turned := by decide +kernel
  obtain ⟨a, b, hab⟩ := List.length_eq_two.1 hlen
  rw [hab] at hzero hone
  cases hfirst.symm.trans htwice
  cases hsecond.symm.trans hturned
  cases hzero
  cases hone
  exact ⟨hg, hload, hm, hb, hok, hab⟩

end Network

end LayerGraph
