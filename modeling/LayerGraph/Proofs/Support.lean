import LayerGraph.Proofs.Execution

/-!
# When a graph loads

A graph loads on the reference backend exactly when it is valid and the registry has a
workload for the kind and element type of every node. Once a graph is valid nothing but a
missing workload can stop it, and the first node in order that lacks one is reported.
-/

set_option autoImplicit false

namespace LayerGraph

open LayerGraph.Graph

/-- Element type that the workload of a node runs at: the type of the node's output, and at
an output node the type of the tensor it consumes. -/
def Graph.workloadType? (g : Graph) (node : Node) : Option DataType :=
  match node.operation with
  | .output _ => (g.inputDescriptor? ⟨node.id, 0⟩).map (·.dataType)
  | _ => (node.outputDescriptor? 0).map (·.dataType)

def Registry.SupportsNode (registry : Registry) (backend : BackendId) (g : Graph) (node : Node) :
    Prop :=
  ∃ t, g.workloadType? node = some t ∧ registry.supports node.kind backend t = true

theorem Graph.Typed.workloadType? {g : Graph} {id : NodeId} {node : Node} {reads : List Descriptor}
    {written : Descriptor} (h : g.Typed id node.operation reads written) (hg : g.Sound)
    (hn : g.node? id = some node) : g.workloadType? node = some written.dataType := by
  have hboundary := h.boundary? hg hn
  cases hop : node.operation with
  | output b =>
    simp only [Graph.boundary?, hop] at hboundary
    obtain ⟨d, hd, heq⟩ := Option.map_eq_some_iff.1 hboundary
    have hdescriptor : d = written := by
      simp only [Prod.mk.injEq, Binding.mk.injEq] at heq
      exact heq.2.2.2.1
    simp [Graph.workloadType?, hop, hd, hdescriptor]
  | _ =>
    have hw := h.written_eq (by simp [hop, Operation.kind])
    rw [outputDescriptor?_of_node hn] at hw
    simp [Graph.workloadType?, hop, hw]

namespace Reference

variable {f : FloatAddition} {kind : OperationKind} {t : DataType} {spec : WorkloadSpec}

theorem supports_iff :
    (referenceBackend f).registry.supports kind referenceId t = true ↔ t ∈ types kind := by
  rw [Registry.supports, Table.contains, Option.isSome_iff_exists]
  constructor
  · rintro ⟨c, hc⟩
    exact (find?_registry.1 hc).1
  · intro ht
    obtain ⟨c, hc⟩ := constructor?_isSome (f := f) ht
    exact ⟨c, find?_registry.2 ⟨ht, hc⟩⟩

theorem create_unsupported (ht : t ∉ types spec.operation.kind) :
    (referenceBackend f).registry.create spec referenceId t =
      .error (.unsupportedCombination spec.operation.kind t referenceId) := by
  have hnone :
      (referenceBackend f).registry.find? ⟨spec.operation.kind, referenceId, t⟩ = none := by
    rw [Option.eq_none_iff_forall_not_mem]
    intro c hc
    exact ht (find?_registry.1 hc).1
  simp [Registry.create, hnone]

end Reference

namespace Network

variable {f : FloatAddition} {g : Graph} {registry : Registry} {backend : BackendId}

/-- Creation stops at the first step for which the registry has nothing. -/
theorem createAll_eq_error {α : Type} {R : α → PlanStep → Prop} {ids : List α}
    {steps : List PlanStep} {workloads : List Workload} {e : LoadError}
    (hR : List.Forall₂ R ids steps)
    (h : createAll registry backend steps = (workloads, some e)) :
    ∃ before id after step cause, ids = before ++ id :: after ∧
      (∀ k ∈ before, ∃ step w, R k step ∧
        registry.create step.spec backend step.dataType = .ok w) ∧
      R id step ∧ registry.create step.spec backend step.dataType = .error cause ∧
      e = .workload step.spec.name cause := by
  induction hR generalizing workloads with
  | nil => simp [createAll] at h
  | @cons id step ids steps hstep _ ih =>
    rw [createAll] at h
    cases hc : registry.create step.spec backend step.dataType with
    | error cause =>
      simp only [hc, Prod.mk.injEq, Option.some.injEq] at h
      exact ⟨[], id, ids, step, cause, rfl, by simp, hstep, hc, h.2.symm⟩
    | ok w =>
      rcases hrest : createAll registry backend steps with ⟨rest, failure⟩
      simp only [hc, hrest, Prod.mk.injEq] at h
      obtain ⟨before, k, after, step', cause, rfl, hbefore, hk, hcause, he⟩ := ih (h.2 ▸ hrest)
      refine ⟨id :: before, k, after, step', cause, rfl, ?_, hk, hcause, he⟩
      exact List.forall_mem_cons.2 ⟨⟨step, w, hstep, hc⟩, hbefore⟩

section Step

variable {table : BindingTable} {buffers : List PlanBuffer} {id : NodeId} {step : PlanStep}

/-- On the reference backend a step of a plan fails only for want of a workload. -/
theorem create_planned (hg : g.Sound) (hp : g.Planned table buffers id step) :
    ∃ node t, g.node? id = some node ∧ g.workloadType? node = some t ∧
      step.spec.name = node.name ∧
      (t ∈ Reference.types node.kind →
        ∃ w, (referenceBackend f).registry.create step.spec referenceId step.dataType = .ok w) ∧
      (t ∉ Reference.types node.kind →
        (referenceBackend f).registry.create step.spec referenceId step.dataType =
          .error (.unsupportedCombination node.kind t referenceId)) := by
  obtain ⟨node, reads, written, hn, ht, hc, hname, htype⟩ := hp
  have hkind : step.spec.operation.kind = node.kind := by rw [hc.operation, Node.kind]
  refine ⟨node, written.dataType, hn, ht.workloadType? hg hn, hname, fun hmem => ?_, fun hmem => ?_⟩
  · obtain ⟨w, hw, -⟩ := create_ok (f := f) (hc.operation ▸ ht.takes) hc.reads_eq hc.written_eq
      (hkind ▸ hmem)
    exact ⟨w, htype ▸ hw⟩
  · rw [← hkind] at hmem ⊢
    rw [htype]
    exact Reference.create_unsupported hmem

end Step

theorem supportsNode_iff {id : NodeId} {node : Node} {reads : List Descriptor}
    {written : Descriptor} (hg : g.Sound) (hn : g.node? id = some node)
    (ht : g.Typed id node.operation reads written) :
    (referenceBackend f).registry.SupportsNode referenceId g node ↔
      written.dataType ∈ Reference.types node.kind := by
  simp only [Registry.SupportsNode, ht.workloadType? hg hn, Option.some.injEq, exists_eq_left',
    Reference.supports_iff]

theorem supported_iff {table : BindingTable} (hv : g.Valid table) : g.Supported ↔
    ∀ id node, g.node? id = some node →
      (referenceBackend f).registry.SupportsNode referenceId g node := by
  constructor
  · intro hs id node hn
    obtain ⟨reads, written, ht⟩ := hv.typed id node hn
    exact (supportsNode_iff hv.sound hn ht).2 (hs id node reads written hn ht)
  · intro h id node reads written hn ht
    exact (supportsNode_iff hv.sound hn ht).1 (h id node hn)

theorem exists_load_iff (hg : g.Sound) :
    (∃ n, (load g referenceId (referenceBackend f).registry).1 = .ok n) ↔
      g.validate = .ok () ∧ ∀ id node, g.node? id = some node →
        (referenceBackend f).registry.SupportsNode referenceId g node := by
  rw [hg.validate_eq_ok_iff]
  constructor
  · rintro ⟨n, hn⟩
    obtain ⟨buffers, hserves⟩ := Serves.of_load hg hn
    exact ⟨⟨_, hserves.valid⟩, (supported_iff hserves.valid).1 hserves.supported⟩
  · rintro ⟨⟨table, hv⟩, hs⟩
    exact exists_load hv ((supported_iff hv).2 hs)

/-- A node that the registry does not support, while it supports every node before it in
topological order. -/
structure FirstUnsupported (registry : Registry) (backend : BackendId) (g : Graph) (id : NodeId)
    (node : Node) (t : DataType) : Prop where
  node_eq : g.node? id = some node
  type_eq : g.workloadType? node = some t
  unsupported : registry.supports node.kind backend t = false
  earlier : ∃ before after, g.order = before ++ id :: after ∧
    ∀ k ∈ before, ∀ m, g.node? k = some m → registry.SupportsNode backend g m

theorem load_error_of_validate (hg : g.Sound) (hvalid : g.validate = .ok ()) {e : LoadError}
    (h : (load g referenceId (referenceBackend f).registry).1 = .error e) :
    ∃ id node t, FirstUnsupported (referenceBackend f).registry referenceId g id node t ∧
      e = .workload node.name (.unsupportedCombination node.kind t referenceId) := by
  obtain ⟨table, hv⟩ := hg.validate_eq_ok_iff.1 hvalid
  obtain ⟨plan, hplan⟩ := hv.exists_plan
  rcases hc : createAll (referenceBackend f).registry referenceId plan.steps with
    ⟨workloads, _ | e'⟩
  · simp [load, hplan, hc] at h
  obtain rfl : e' = e := by simpa [load, hplan, hc] using h
  obtain ⟨before, id, after, step, cause, horder, hbefore, hid, hcause, rfl⟩ :=
    createAll_eq_error (hg.planned hplan) hc
  obtain ⟨node, t, hn, ht, hname, hok, herror⟩ := create_planned (f := f) hg hid
  -- with a workload for its type the node would not have failed
  have hmem : t ∉ Reference.types node.kind := by
    intro hmem
    obtain ⟨w, hw⟩ := hok hmem
    cases hw.symm.trans hcause
  refine ⟨id, node, t, ⟨hn, ht, ?_, before, after, horder, fun k hk m hm => ?_⟩, ?_⟩
  · rwa [Bool.eq_false_iff, ne_eq, Reference.supports_iff]
  · obtain ⟨earlier, w, hplanned, hw⟩ := hbefore k hk
    obtain ⟨m', t', hm', ht', -, -, herror'⟩ := create_planned (f := f) hg hplanned
    obtain rfl := Option.some.inj (hm.symm.trans hm')
    refine ⟨t', ht', Reference.supports_iff.2 ?_⟩
    by_contra hmem'
    cases hw.symm.trans (herror' hmem')
  · cases hcause.symm.trans (herror hmem)
    rw [hname]

/-- The reference backend loads the valid graphs all of whose nodes it supports, and no
others. A graph that is not valid is refused for the fault that validation finds, and a valid
one for the first node in order that is not supported. -/
theorem load_reference_iff (hg : g.Reachable) :
    ((∃ n, (load g referenceId (referenceBackend f).registry).1 = .ok n) ↔
      g.validate = .ok () ∧ ∀ id node, g.node? id = some node →
        (referenceBackend f).registry.SupportsNode referenceId g node) ∧
    (∀ e, g.validate = .error e →
      (load g referenceId (referenceBackend f).registry).1 = .error (.graph e)) ∧
    (g.validate = .ok () → ∀ e, (load g referenceId (referenceBackend f).registry).1 = .error e →
      ∃ id node t, FirstUnsupported (referenceBackend f).registry referenceId g id node t ∧
        e = .workload node.name (.unsupportedCombination node.kind t referenceId)) := by
  refine ⟨exists_load_iff hg.sound, fun e he => ?_, fun hvalid e he => ?_⟩
  · have hplan : g.plan = .error e := by
      rw [plan, he]
      rfl
    simp [load, hplan]
  · exact load_error_of_validate hg.sound hvalid he

def counts : Descriptor := ⟨wide.shape, .signed32, none, rfl⟩

def turnedCounts : Descriptor := ⟨tall.shape, .signed32, none, rfl⟩

/-- Two transposes of a type that the backend does not reorder; the one inserted first comes
second. -/
def stalled : Graph := Graph.empty.changed
  [.add (.transpose swap) "late", .setDescriptor ⟨0, 0⟩ counts,
    .add (.input 0) "x", .setDescriptor ⟨1, 0⟩ counts,
    .add (.transpose swap) "early", .setDescriptor ⟨2, 0⟩ turnedCounts,
    .add (.output 0) "y", .connect ⟨1, 0⟩ ⟨2, 0⟩, .connect ⟨2, 0⟩ ⟨0, 0⟩, .connect ⟨0, 0⟩ ⟨3, 0⟩]

theorem load_reference_iff_stalled :
    stalled.Reachable ∧ stalled.validate = .ok () ∧ stalled.order = [1, 2, 0, 3] ∧
      (load stalled referenceId (referenceBackend .nearest).registry).1 =
        .error (.workload "early" (.unsupportedCombination .transpose .signed32 referenceId)) := by
  have hg : stalled.Reachable := .changed .empty _
  have hvalid : stalled.validate = .ok () := by decide +kernel
  have horder : stalled.order = [1, 2, 0, 3] := by decide +kernel
  have hunsupported : ¬ (referenceBackend .nearest).registry.SupportsNode referenceId stalled
      ((stalled.node? 2).get (by decide +kernel)) := by
    rintro ⟨t, ht, hs⟩
    cases ht
    exact absurd (Reference.supports_iff.1 hs) (by decide +kernel)
  refine ⟨hg, hvalid, horder, ?_⟩
  cases hload : (load stalled referenceId (referenceBackend .nearest).registry).1 with
  | ok n =>
    have hall := ((load_reference_iff hg).1.1 ⟨n, hload⟩).2
    exact absurd (hall 2 _ (Option.some_get _).symm) hunsupported
  | error e =>
    obtain ⟨id, node, t, ⟨hn, ht, hs, before, after, hsplit, hearlier⟩, rfl⟩ :=
      (load_reference_iff hg).2.2 hvalid e hload
    rw [horder] at hsplit
    obtain _ | ⟨a, _ | ⟨b, before⟩⟩ := before
    · cases hsplit
      cases hn
      cases ht
      exact absurd (Reference.supports_iff.2 (by decide +kernel)) (Bool.eq_false_iff.1 hs)
    · cases hsplit
      cases hn
      cases ht
      rfl
    · obtain ⟨rfl, rfl, -⟩ : a = 1 ∧ b = 2 ∧ _ := by simpa [eq_comm] using hsplit
      exact absurd (hearlier 2 (by simp) _ (Option.some_get _).symm) hunsupported

end Network

end LayerGraph
