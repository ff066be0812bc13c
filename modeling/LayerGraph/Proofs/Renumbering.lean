import LayerGraph.Proofs.Acceptance
import LayerGraph.Proofs.Execution

/-!
# Renumbered graphs

Graphs that differ only in the ids of their nodes. One is valid when the other is, with the
same tensors under the same names, and the values of corresponding nodes are the same: they
solve the same equations. The networks of the two do the same for a caller, who knows the
tensors by name.
-/

set_option autoImplicit false

namespace LayerGraph

open LayerGraph.Graph

namespace Graph

/-- The node `ρ i` of `h` is what the node `i` of `g` is, and reads the corresponding nodes. -/
structure Renumbers (ρ : NodeId → NodeId) (g h : Graph) : Prop where
  node : ∀ i node, g.node? i = some node → ∃ other, h.node? (ρ i) = some other ∧
    other.name = node.name ∧ other.operation = node.operation ∧
    ∀ k, other.outputDescriptor? k = node.outputDescriptor? k
  source : ∀ i k, g.contains i = true →
    h.source? ⟨ρ i, k⟩ = (g.source? ⟨i, k⟩).map fun o => ⟨ρ o.node, o.index⟩
  injective : ∀ i j, g.contains i = true → g.contains j = true → ρ i = ρ j → i = j
  onto : ∀ j, h.contains j = true → ∃ i, g.contains i = true ∧ ρ i = j

namespace Renumbers

variable {f : FloatAddition} {ρ : NodeId → NodeId} {g h : Graph} {i : NodeId} {node : Node}
  {reads : List Descriptor} {written : Descriptor} {operation : Operation}
  (hρ : Renumbers ρ g h)

include hρ

theorem outputDescriptor? (hi : g.contains i = true) (k : Nat) :
    h.outputDescriptor? ⟨ρ i, k⟩ = g.outputDescriptor? ⟨i, k⟩ := by
  obtain ⟨node, hn⟩ := contains_iff.1 hi
  obtain ⟨other, ho, -, -, hout⟩ := hρ.node i node hn
  rw [outputDescriptor?_of_node hn, outputDescriptor?_of_node ho, hout]

theorem inputDescriptor? (hg : g.Sound) (hi : g.contains i = true) (k : Nat) :
    h.inputDescriptor? ⟨ρ i, k⟩ = g.inputDescriptor? ⟨i, k⟩ := by
  rw [inputDescriptor?_eq, inputDescriptor?_eq, hρ.source i k hi]
  cases ho : g.source? ⟨i, k⟩ with
  | none => rfl
  | some o => exact hρ.outputDescriptor? (hg.edge_live (.of_source? ho)).1 o.index

theorem typed (hg : g.Sound) (hi : g.contains i = true)
    (ht : g.Typed i operation reads written) : h.Typed (ρ i) operation reads written where
  takes := ht.takes
  reads_eq hk := by
    rw [← ht.reads_eq hk]
    simp only [hρ.inputDescriptor? hg hi]
  written_eq hk := by rw [← ht.written_eq hk, hρ.outputDescriptor? hi]

theorem boundary? (hg : g.Sound) (hh : h.Sound) (hi : g.node? i = some node) {other : Node}
    (ho : h.node? (ρ i) = some other) :
    h.boundary? other = (g.boundary? node).map fun entry =>
      (entry.1, { entry.2 with node := ρ i }) := by
  obtain ⟨other', ho', hname, hop, hout⟩ := hρ.node i node hi
  obtain rfl := Option.some.inj (ho.symm.trans ho')
  have hin := hρ.inputDescriptor? hg (contains_iff.2 ⟨node, hi⟩) 0
  simp only [Graph.boundary?, hop, hname, hout, hh.node_id _ _ ho, hg.node_id _ _ hi, hin]
  cases node.operation <;> simp [Function.comp_def]

theorem exists_typed (hg : g.Sound) (htyped : ∀ id node, g.node? id = some node →
      ∃ reads written, g.Typed id node.operation reads written)
    (j : NodeId) (other : Node) (hj : h.node? j = some other) :
    ∃ reads written, h.Typed j other.operation reads written := by
  obtain ⟨i, hi, rfl⟩ := hρ.onto j (contains_iff.2 ⟨other, hj⟩)
  obtain ⟨node, hn⟩ := contains_iff.1 hi
  obtain ⟨other', ho, -, hop, -⟩ := hρ.node i node hn
  obtain rfl := Option.some.inj (hj.symm.trans ho)
  obtain ⟨reads, written, ht⟩ := htyped i node hn
  exact ⟨reads, written, hop ▸ hρ.typed hg hi ht⟩

theorem exists_valid {table : BindingTable} (hv : g.Valid table) (hh : h.Sound) :
    ∃ table', h.Valid table' := by
  have hg := hv.sound
  have htyped := hρ.exists_typed hg hv.typed
  have hapart := (exists_bindingTable_iff hg hv.typed).1 ⟨table, hv.bindings⟩
  obtain ⟨table', htable⟩ := (exists_bindingTable_iff hh htyped).2 fun a b hab => by
    intro other ha other' hb entry hentry entry' hentry'
    obtain ⟨i, hi, rfl⟩ := hρ.onto a (contains_iff.2 ⟨other, ha⟩)
    obtain ⟨j, hj, rfl⟩ := hρ.onto b (contains_iff.2 ⟨other', hb⟩)
    obtain ⟨node, hn⟩ := contains_iff.1 hi
    obtain ⟨node', hn'⟩ := contains_iff.1 hj
    rw [hρ.boundary? hg hh hn ha] at hentry
    rw [hρ.boundary? hg hh hn' hb] at hentry'
    obtain ⟨old, hold, rfl⟩ := Option.map_eq_some_iff.1 hentry
    obtain ⟨old', hold', rfl⟩ := Option.map_eq_some_iff.1 hentry'
    exact hapart i j (fun hij => hab (hij ▸ rfl)) node hn node' hn' old hold old' hold'
  exact ⟨table', hh, htyped, htable⟩

theorem supported (hg : g.Sound) (htyped : ∀ id node, g.node? id = some node →
      ∃ reads written, g.Typed id node.operation reads written) (hs : g.Supported) :
    h.Supported := by
  intro j other reads written hj ht
  obtain ⟨i, hi, rfl⟩ := hρ.onto j (contains_iff.2 ⟨other, hj⟩)
  obtain ⟨node, hn⟩ := contains_iff.1 hi
  obtain ⟨other', ho, -, hop, -⟩ := hρ.node i node hn
  obtain rfl := Option.some.inj (hj.symm.trans ho)
  obtain ⟨reads', written', ht'⟩ := htyped i node hn
  obtain ⟨-, rfl⟩ := ht.unique (hop ▸ hρ.typed hg hi ht')
  simpa [Node.kind, hop] using hs i node reads' written hn ht'

/-- Values of corresponding nodes solve the same equations. -/
theorem value? (hg : g.Sound) (hh : h.Sound) {inputs : String → Option Memory}
    (hi : g.contains i = true) : h.value? f inputs (ρ i) = g.value? f inputs i := by
  refine hg.eq_value? (v := fun i => h.value? f inputs (ρ i)) (fun i hi => ?_) hi
  obtain ⟨node, hn⟩ := contains_iff.1 hi
  obtain ⟨other, ho, hname, hop, hout⟩ := hρ.node i node hn
  rw [hh.value?_eq]
  refine nodeValue_eq_of_node hn ho hname hop (hout 0) (fun k => ?_) (hρ.inputDescriptor? hg hi 0)
  rw [hρ.source i k hi, Option.bind_map]
  rfl

variable {table table' : BindingTable} {d : Direction} {b : Binding}

theorem mem_side (hv : g.Valid table) (hv' : h.Valid table') (hb : b ∈ table.side d) :
    { b with node := ρ b.node } ∈ table'.side d := by
  obtain ⟨node, hn, hboundary⟩ := hv.mem_side_iff.1 hb
  obtain ⟨other, ho, -⟩ := hρ.node b.node node hn
  refine hv'.mem_side_iff.2 ⟨other, ho, ?_⟩
  rw [hρ.boundary? hv.sound hv'.sound hn ho, hboundary]
  rfl

theorem of_mem_side (hv : g.Valid table) (hv' : h.Valid table') (hb : b ∈ table'.side d) :
    ∃ a ∈ table.side d, b = { a with node := ρ a.node } := by
  obtain ⟨other, ho, hboundary⟩ := hv'.mem_side_iff.1 hb
  obtain ⟨i, hi, hib⟩ := hρ.onto b.node (contains_iff.2 ⟨other, ho⟩)
  obtain ⟨node, hn⟩ := contains_iff.1 hi
  rw [hρ.boundary? hv.sound hv'.sound hn (hib ▸ ho)] at hboundary
  obtain ⟨⟨d', a⟩, ha, heq⟩ := Option.map_eq_some_iff.1 hboundary
  obtain ⟨rfl, rfl⟩ := Prod.mk.inj heq
  obtain rfl : a.node = i := by rw [(boundary?_spec ha).2.1, hv.sound.node_id i node hn]
  exact ⟨a, hv.mem_side_iff.2 ⟨node, hn, ha⟩, rfl⟩

theorem names_perm (hv : g.Valid table) (hv' : h.Valid table') (d : Direction) :
    ((table.side d).map (·.name)).Perm ((table'.side d).map (·.name)) := by
  refine (List.perm_ext_iff_of_nodup hv.side_foldlM.2 hv'.side_foldlM.2).2 fun name => ?_
  rw [List.mem_map, List.mem_map]
  constructor
  · rintro ⟨b, hb, rfl⟩
    exact ⟨_, hρ.mem_side hv hv' hb, rfl⟩
  · rintro ⟨b, hb, rfl⟩
    obtain ⟨a, ha, rfl⟩ := hρ.of_mem_side hv hv' hb
    exact ⟨a, ha, rfl⟩

theorem accepts_iff (hv : g.Valid table) (hv' : h.Valid table')
    {supplied supplied' : List NamedTensor} (hperm : supplied.Perm supplied') :
    table.Accepts d supplied ↔ table'.Accepts d supplied' := by
  have hnames := hρ.names_perm hv hv' d
  constructor
  · intro h
    refine ⟨((hperm.map _).symm.trans h.names).trans hnames, fun s hs b hb hname => ?_⟩
    obtain ⟨a, ha, rfl⟩ := hρ.of_mem_side hv hv' hb
    exact h.fits s (hperm.mem_iff.2 hs) a ha hname
  · intro h
    refine ⟨((hperm.map _).trans h.names).trans hnames.symm, fun s hs b hb hname => ?_⟩
    have hfits := h.fits s (hperm.mem_iff.1 hs) _ (hρ.mem_side hv hv' hb) hname
    exact hfits

end Renumbers

end Graph

theorem suppliedMemory_eq_some_iff {supplied : List NamedTensor}
    (hn : (supplied.map (·.name)).Nodup) {name : String} {m : Memory} :
    suppliedMemory supplied name = some m ↔
      ∃ s ∈ supplied, s.name = name ∧ s.tensor.memory = m := by
  rw [suppliedMemory, Option.map_eq_some_iff]
  constructor
  · rintro ⟨s, hs, rfl⟩
    exact ⟨s, List.mem_of_find?_eq_some hs, by simpa using List.find?_some hs, rfl⟩
  · rintro ⟨s, hs, rfl, rfl⟩
    cases hf : supplied.find? fun t => t.name == s.name with
    | none => simpa using List.find?_eq_none.1 hf s hs
    | some t =>
      have hname : t.name = s.name := by simpa using List.find?_some hf
      obtain rfl := List.inj_on_of_nodup_map hn (List.mem_of_find?_eq_some hf) hs hname
      exact ⟨t, rfl, rfl⟩

/-- What is supplied under distinct names does not depend on the order. -/
theorem suppliedMemory_perm {supplied supplied' : List NamedTensor}
    (hn : (supplied.map (·.name)).Nodup) (hperm : supplied.Perm supplied') :
    suppliedMemory supplied' = suppliedMemory supplied := by
  have hn' : (supplied'.map (·.name)).Nodup := (hperm.map _).nodup_iff.1 hn
  funext name
  apply Option.ext
  intro m
  simp only [suppliedMemory_eq_some_iff hn, suppliedMemory_eq_some_iff hn', hperm.mem_iff]

namespace Network

/-- Two executions that come to the same for a caller who knows the tensors by name: both are
accepted, and outputs of one name hold the same, or both are refused, and the outputs are as
they were. -/
structure SameByName (outputs outputs' : List NamedTensor) (e e' : Execution) : Prop where
  accepted : e.outcome = .ok () ↔ e'.outcome = .ok ()
  contents : e.outcome = .ok () → ∀ (i j : Nat) s t, outputs[i]? = some s → outputs'[j]? = some t →
    s.name = t.name → ∃ m, e.outputs[i]? = some m ∧ e'.outputs[j]? = some m
  refused : e.outcome ≠ .ok () → e.outputs = outputs.map (·.tensor.memory) ∧
    e'.outputs = outputs'.map (·.tensor.memory)

variable {f : FloatAddition} {g h : Graph} {buffers buffers' : List PlanBuffer} {n n' : Network}
  {inputs inputs' outputs outputs' : List NamedTensor}

theorem Serves.accepts_iff (hs : Serves f g buffers n) :
    (∃ places, n.bindings.bindAll inputs outputs = .ok places) ↔
      n.bindings.Accepts .input inputs ∧ n.bindings.Accepts .output outputs :=
  BindingTable.exists_bindAll_iff fun _ => hs.valid.side_foldlM.2

theorem Serves.outcome_iff (hs : Serves f g buffers n) :
    (n.execute inputs outputs).outcome = .ok () ↔
      n.bindings.Accepts .input inputs ∧ n.bindings.Accepts .output outputs := by
  rw [← hs.accepts_iff]
  constructor
  · intro hok
    cases hb : n.bindings.bindAll inputs outputs with
    | error e => simp [Network.execute, hb] at hok
    | ok places => exact ⟨places, rfl⟩
  · rintro ⟨places, hb⟩
    obtain ⟨_, _, hrun, -⟩ := hs.execute hb
    rw [hrun]

theorem Serves.refused (hs : Serves f g buffers n)
    (hno : (n.execute inputs outputs).outcome ≠ .ok ()) :
    (n.execute inputs outputs).outputs = outputs.map (·.tensor.memory) := by
  cases hb : n.bindings.bindAll inputs outputs with
  | error e => simp [Network.execute, hb]
  | ok places => exact absurd (hs.outcome_iff.2 (hs.accepts_iff.1 ⟨places, hb⟩)) hno

/-- Networks of renumbered graphs do the same. -/
theorem Serves.sameByName {ρ : NodeId → NodeId} (hρ : g.Renumbers ρ h)
    (hs : Serves f g buffers n) (hs' : Serves f h buffers' n') (hin : inputs.Perm inputs')
    (hout : outputs.Perm outputs') :
    SameByName outputs outputs' (n.execute inputs outputs) (n'.execute inputs' outputs') := by
  have hiff : (n.execute inputs outputs).outcome = .ok () ↔
      (n'.execute inputs' outputs').outcome = .ok () := by
    rw [hs.outcome_iff, hs'.outcome_iff, hρ.accepts_iff hs.valid hs'.valid hin,
      hρ.accepts_iff hs.valid hs'.valid hout]
  refine ⟨hiff, fun hok i j s t hi hj hname => ?_, fun hno => ⟨hs.refused hno, hs'.refused ?_⟩⟩
  · have haccepts := hs.outcome_iff.1 hok
    have hnames : (inputs.map (·.name)).Nodup :=
      haccepts.1.names.nodup_iff.2 (hs.valid.side_foldlM (d := .input)).2
    obtain ⟨places, hb⟩ := hs.accepts_iff.2 haccepts
    obtain ⟨places', hb'⟩ := hs'.accepts_iff.2 (hs'.outcome_iff.1 (hiff.1 hok))
    obtain ⟨_, memories, hrun, -, hlen, hvalues⟩ := hs.execute hb
    obtain ⟨_, memories', hrun', -, -, hvalues'⟩ := hs'.execute hb'
    obtain ⟨b, hbm, hbn, hvalue⟩ := hvalues i s hi
    obtain ⟨b', hbm', hbn', hvalue'⟩ := hvalues' j t hj
    -- the binding of the name belongs to the node that corresponds
    obtain ⟨a, ha, rfl⟩ := hρ.of_mem_side (d := .output) hs.valid hs'.valid hbm'
    obtain rfl : a = b := List.inj_on_of_nodup_map (hs.valid.side_foldlM (d := .output)).2 ha hbm
      (hbn'.trans (hname.symm.trans hbn.symm))
    obtain ⟨node, hn, -⟩ := (hs.valid.mem_side_iff (d := .output)).1 ha
    rw [suppliedMemory_perm hnames hin,
      hρ.value? hs.valid.sound hs'.valid.sound (contains_iff.2 ⟨node, hn⟩), ← hvalue] at hvalue'
    have hheld := List.getElem?_eq_getElem (hlen ▸ (List.getElem?_eq_some_iff.1 hi).1)
    rw [hrun, hrun']
    exact ⟨_, hheld, hvalue'.trans hheld⟩
  · rwa [ne_eq, ← hiff]

end Network

end LayerGraph
