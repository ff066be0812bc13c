import LayerGraph.Proofs.LayoutCriterion

/-!
# Two conventions for axes

A permute says where each axis goes, a transpose where each axis comes from. A permute is the
transpose by the inverse permutation wherever axes are handled: in the shape inferred, in the
checks of a graph, in the workloads built and run, in the test for reorderings that move
nothing, and in the test for pairs that cancel.
-/

set_option autoImplicit false

namespace LayerGraph

namespace Permutation

variable {p q : Permutation}

theorem eq_of_axes (h : p.axes = q.axes) : p = q := by
  cases p
  cases q
  cases h
  rfl

theorem inverse_inverse (p : Permutation) : p.inverse.inverse = p := by
  apply eq_of_axes
  apply List.ext_getElem?
  intro i
  rw [Option.ext_iff]
  intro axis
  rw [getElem?_inverse_iff, getElem?_inverse_iff]

/-- Two readings come to reading straight just when they are inverse to each other. -/
theorem axesCancel_axes_iff : Rule.axesCancel p.axes q.axes = true ↔ p = q.inverse := by
  rw [axesCancel_iff]
  constructor
  · rintro ⟨hlen, hread⟩
    apply eq_of_axes
    apply List.ext_getElem (hlen.trans q.length_inverse.symm)
    intro i h₁ h₂
    have hback := hread _ i (getElem?_inverse_iff.1 (List.getElem?_eq_getElem h₂))
    exact Option.some.inj ((List.getElem?_eq_getElem h₁).symm.trans hback)
  · rintro rfl
    exact ⟨q.length_inverse, fun j read h => getElem?_inverse_iff.2 h⟩

theorem permuteShape?_eq (m : Permutation) (s : Shape) :
    m.permuteShape? s = m.inverse.transposeShape? s := by
  have hlength : m.inverse.length = m.length := m.length_inverse
  rw [permuteShape?, transposeShape?, hlength]
  split
  · rename_i hrank
    rw [scatterDims_eq hrank]
  · rfl

theorem permuteShape?_eq_none_iff {s : Shape} : p.permuteShape? s = none ↔ p.length ≠ s.rank := by
  rw [permuteShape?]
  split <;> simp_all [eq_comm]

/-- Moving the axes of a shape gives a shape of as many elements. -/
theorem exists_permuted {s : Shape} (h : p.length = s.rank) :
    ∃ out, p.permuteShape? s = some (.ok out) ∧ out.numElements = s.numElements := by
  have hrank : p.inverse.axes.length = s.dims.length := p.length_inverse.trans h
  obtain ⟨out, hout⟩ := p.inverse.exists_gathered hrank
  refine ⟨out, permuteShape?_eq_some_iff.2 ⟨hrank, hout⟩, ?_⟩
  rw [Shape.numElements, ← hout, volume_gatherDims p.inverse hrank]
  rfl

end Permutation

/-- Two runs that leave the same memories and either both succeed or both fail. -/
def WorkloadRun.Agree (r s : WorkloadRun) : Prop :=
  r.outputs = s.outputs ∧ (r.outcome = .ok () ↔ s.outcome = .ok ())

def Workload.Agree (v w : Workload) : Prop :=
  ∀ inputs outputs, (v.run inputs outputs).Agree (w.run inputs outputs)

theorem writeFirst_agree (name name' : String) (s : Storage)
    (compute : (room : Nat) → Except String (ElementsOf s room)) (outputs : List Memory) :
    (writeFirst name s compute outputs).Agree (writeFirst name' s compute outputs) := by
  cases outputs with
  | nil => simp [writeFirst, WorkloadRun.Agree]
  | cons memory rest =>
    by_cases hs : memory.storage = s
    · cases hc : compute memory.size <;> simp [writeFirst, WorkloadRun.Agree, hs, hc]
    · simp [writeFirst, WorkloadRun.Agree, hs]

/-- The name of a workload shows in its errors only. -/
theorem runUnary_agree (name name' : String) (s : Storage)
    (kernel : Elements s → (room : Nat) → Except String (ElementsOf s room))
    (inputs outputs : List Memory) :
    (runUnary name s kernel inputs outputs).Agree (runUnary name' s kernel inputs outputs) := by
  unfold runUnary typedInput
  cases inputs[0]? with
  | none => simp [WorkloadRun.Agree]
  | some memory =>
    cases hm : memory.as? s with
    | none => simp [WorkloadRun.Agree, hm]
    | some elements =>
      simp only [hm]
      exact writeFirst_agree name name' s _ outputs

namespace Reference

variable {kind kind' : OperationKind} {t : DataType} {spec spec' : WorkloadSpec} {p : Permutation}
  {v w : Workload}

theorem exists_reordering_iff (hk : spec.operation.kind = kind)
    (hp : spec.operation.reading? = some p) : (∃ w, reordering kind t spec = .ok w) ↔
      ∃ i o a b, spec.inputs = [⟨i, a⟩] ∧ spec.outputs = [⟨o, b⟩] ∧ spec.operation.Takes [a] b ∧
        b.dataType = t := by
  constructor
  · rintro ⟨w, hw⟩
    obtain ⟨i, o, a, b, hin, hout, htakes, ht, -⟩ := (reordering_eq_ok_iff hk hp).1 hw
    exact ⟨i, o, a, b, hin, hout, htakes, ht⟩
  · rintro ⟨i, o, a, b, hin, hout, htakes, ht⟩
    exact ⟨_, (reordering_eq_ok_iff hk hp).2 ⟨i, o, a, b, hin, hout, htakes, ht, rfl⟩⟩

section SameReading

variable (hk : spec.operation.kind = kind) (hk' : spec'.operation.kind = kind')
  (hp : spec.operation.reading? = some p) (hp' : spec'.operation.reading? = some p)
  (hin : spec.inputs = spec'.inputs)

include hk hk' hp hp' hin

/-- Workloads are built for the same tensors. -/
theorem accepts_of_reading (hout : spec.outputs = spec'.outputs) :
    (∃ v, reordering kind t spec = .ok v) ↔ ∃ w, reordering kind' t spec' = .ok w := by
  simp only [exists_reordering_iff hk hp, exists_reordering_iff hk' hp', hin, hout,
    Operation.takes_iff_of_reading hp, Operation.takes_iff_of_reading hp']

/-- Workloads that read the axes of the same tensors alike agree. -/
theorem agree_of_reading (hv : reordering kind t spec = .ok v)
    (hw : reordering kind' t spec' = .ok w) : v.Agree w := by
  obtain ⟨i, o, a, b, hi, -, -, -, rfl⟩ := (reordering_eq_ok_iff hk hp).1 hv
  obtain ⟨i', o', a', b', hi', -, -, -, rfl⟩ := (reordering_eq_ok_iff hk' hp').1 hw
  rw [hin, hi'] at hi
  cases hi
  intro inputs outputs
  exact runUnary_agree _ _ _ _ inputs outputs

end SameReading

end Reference

namespace Graph

variable {f : FloatAddition} {g : Graph} {id : NodeId} {node : Node} {q : Permutation}
  {a b : Descriptor} {w : Workload}

def withOperation (g : Graph) (id : NodeId) (operation : Operation) : Graph :=
  g.updateNode id fun node => { node with operation := operation }

section WithOperation

variable (operation : Operation)

theorem node?_withOperation (k : NodeId) : (g.withOperation id operation).node? k =
    if k = id then (g.node? k).map fun node => { node with operation := operation }
    else g.node? k := node?_updateNode g id _ k

theorem outputDescriptor?_withOperation (o : OutputSlot) :
    (g.withOperation id operation).outputDescriptor? o = g.outputDescriptor? o := by
  rw [outputDescriptor?, node?_withOperation, outputDescriptor?]
  split
  · cases g.node? o.node <;> rfl
  · rfl

theorem source?_withOperation (s : InputSlot) :
    (g.withOperation id operation).source? s = g.source? s := by
  rw [source?, node?_withOperation, source?]
  split
  · cases g.node? s.node <;> rfl
  · rfl

theorem inputDescriptor?_withOperation (s : InputSlot) :
    (g.withOperation id operation).inputDescriptor? s = g.inputDescriptor? s := by
  have houtputs : (g.withOperation id operation).outputDescriptor? = g.outputDescriptor? :=
    funext (outputDescriptor?_withOperation operation)
  rw [inputDescriptor?_eq, source?_withOperation, houtputs, inputDescriptor?_eq]

/-- Whether a node agrees with its tensors does not depend on the operations of others. -/
theorem checkOperation_withOperation (node : Node) :
    (g.withOperation id operation).checkOperation node = g.checkOperation node := by
  have houtputs : (g.withOperation id operation).outputDescriptor? = g.outputDescriptor? :=
    funext (outputDescriptor?_withOperation operation)
  simp only [checkOperation, checkTypes, inputDescriptor?_withOperation, houtputs]

theorem movesNothing_withOperation (source : List Nat) :
    Rule.movesNothing (g.withOperation id operation) id source =
      Rule.movesNothing g id source := by
  rw [Rule.movesNothing, Rule.movesNothing, Rule.inputDims?, Rule.inputDims?,
    node?_withOperation, if_pos rfl]
  cases g.node? id with
  | none => rfl
  | some node =>
    simp only [inputDescriptor?_withOperation, Option.map_some, Option.bind_eq_bind,
      Option.bind_some]
    rfl

end WithOperation

theorem checkTypes_withOperation (node : Node) (operation operation' : Operation)
    (d : Descriptor) : g.checkTypes { node with operation := operation } d = .ok () ↔
      g.checkTypes { node with operation := operation' } d = .ok () := by
  simp only [checkTypes]
  split <;> simp

theorem checkOperation_permute_iff (g : Graph) (node : Node) (m : Permutation) :
    g.checkOperation { node with operation := .permute m } = .ok () ↔
      g.checkOperation { node with operation := .transpose m.inverse } = .ok () := by
  simp only [checkOperation, Node.outputDescriptor?]
  cases g.inputDescriptor? ⟨node.id, 0⟩ with
  | none => rfl
  | some input =>
    cases (node.outputs[0]?).bind (·.descriptor) with
    | none => rfl
    | some output =>
      simp only [check_bind_eq_ok_iff, checkShape_eq_ok_iff, m.permuteShape?_eq]
      rw [checkTypes_withOperation]

/-- The nodes that the checks accept are those that the reference backend serves. -/
theorem Sound.checkOperation_iff_served (hg : g.Sound) (hn : g.node? id = some node)
    (hq : node.operation.reading? = some q) (ha : g.inputDescriptor? ⟨id, 0⟩ = some a)
    (hb : g.outputDescriptor? ⟨id, 0⟩ = some b) :
    g.checkOperation node = .ok () ↔ ∃ w, g.ServedBy f id a b w := by
  obtain ⟨hin, hout, hone⟩ := (Operation.arranges_of_reading hq).kind_eq
  have hreads : (List.range node.kind.numInputs).map (fun i => g.inputDescriptor? ⟨id, i⟩) =
      [a].map some := by
    simp [Node.kind, hone, ha]
  rw [checkOperation_eq_ok_iff hg hn hin hout hreads hb]
  constructor
  · intro htakes
    exact exists_servedBy hn hq ha hb htakes
  · rintro ⟨w, hw⟩
    obtain ⟨spec, hop, htakes, -⟩ := hw.eq_gather hn hq
    exact hop ▸ htakes

theorem ServedBy.runs (hw : g.ServedBy f id a b w) (hn : g.node? id = some node)
    (hq : node.operation.reading? = some q) {memory old : Memory}
    (hm : memory.extent = a.extent) (hold : old.extent = b.extent) :
    (w.run [memory] [old]).outcome = .ok () := by
  obtain ⟨spec, hop, htakes, rfl⟩ := hw.eq_gather hn hq
  rw [Reference.run_gather (hop ▸ hq) htakes hm hold]

end Graph

structure Permutation.TreatedAs (m p : Permutation) : Prop where
  shape : ∀ s : Shape, m.permuteShape? s = p.transposeShape? s
  shape_none : ∀ s : Shape, m.permuteShape? s = none ↔ m.length ≠ s.rank
  shape_ok : ∀ s : Shape, m.length = s.rank →
    ∃ out, m.permuteShape? s = some (.ok out) ∧ out.numElements = s.numElements
  checked : ∀ (g : Graph) (id k : NodeId) (node node' : Node),
    let permuted := g.withOperation id (.permute m)
    let transposed := g.withOperation id (.transpose p)
    permuted.node? k = some node → transposed.node? k = some node' →
      (permuted.checkOperation node = .ok () ↔ transposed.checkOperation node' = .ok ())
  accepted : ∀ (t : DataType) (id : NodeId) (name : String) (ins outs : List TensorBinding),
    (∃ v, Reference.reordering .permute t ⟨id, name, .permute m, ins, outs⟩ = .ok v) ↔
      ∃ w, Reference.reordering .transpose t ⟨id, name, .transpose p, ins, outs⟩ = .ok w
  computed : ∀ (t : DataType) (id : NodeId) (name : String) (ins outs : List TensorBinding) v w,
    Reference.reordering .permute t ⟨id, name, .permute m, ins, outs⟩ = .ok v →
      Reference.reordering .transpose t ⟨id, name, .transpose p, ins, outs⟩ = .ok w → v.Agree w
  served : ∀ (f : FloatAddition) (g : Graph) (id : NodeId) (node : Node) (a b : Descriptor),
    g.Reachable → g.node? id = some node →
      node.operation = .permute m ∨ node.operation = .transpose p →
      g.inputDescriptor? ⟨id, 0⟩ = some a → g.outputDescriptor? ⟨id, 0⟩ = some b →
      (g.checkOperation node = .ok () ↔ ∃ w, g.ServedBy f id a b w) ∧
      ∀ w, g.ServedBy f id a b w → ∀ memory old : Memory, memory.extent = a.extent →
        old.extent = b.extent → (w.run [memory] [old]).outcome = .ok ()
  matched : ∀ (g : Graph) (id : NodeId),
    Rule.permuteAsReshape.applies (g.withOperation id (.permute m)) id =
      Rule.transposeAsReshape.applies (g.withOperation id (.transpose p)) id

namespace Graph

variable {g : Graph} {id : NodeId}

theorem checkOperation_conventions {k : NodeId} {node node' : Node} (m : Permutation)
    (hn : (g.withOperation id (.permute m)).node? k = some node)
    (hn' : (g.withOperation id (.transpose m.inverse)).node? k = some node') :
    (g.withOperation id (.permute m)).checkOperation node = .ok () ↔
      (g.withOperation id (.transpose m.inverse)).checkOperation node' = .ok () := by
  rw [checkOperation_withOperation, checkOperation_withOperation]
  rw [node?_withOperation] at hn hn'
  by_cases hk : k = id
  · rw [if_pos hk] at hn hn'
    obtain ⟨old, hold, rfl⟩ := Option.map_eq_some_iff.1 hn
    obtain ⟨_, hold', rfl⟩ := Option.map_eq_some_iff.1 hn'
    obtain rfl := Option.some.inj (hold.symm.trans hold')
    exact checkOperation_permute_iff g old m
  · rw [if_neg hk] at hn hn'
    obtain rfl := Option.some.inj (hn.symm.trans hn')
    rfl

theorem applies_withOperation_iff {rule : Rule} {operation : Operation} {q : Permutation}
    (hrule : rule.Flattens operation.kind) (hq : operation.reading? = some q) :
    rule.applies (g.withOperation id operation) id = true ↔
      g.contains id = true ∧ Rule.movesNothing g id q.axes = true := by
  rw [hrule, contains_iff]
  constructor
  · rintro ⟨node, p, hn, -, hp, hmoves⟩
    rw [node?_withOperation, if_pos rfl] at hn
    obtain ⟨old, hold, rfl⟩ := Option.map_eq_some_iff.1 hn
    obtain rfl := Option.some.inj (hq.symm.trans hp)
    exact ⟨⟨old, hold⟩, (movesNothing_withOperation operation _).symm.trans hmoves⟩
  · rintro ⟨⟨old, hold⟩, hmoves⟩
    refine ⟨{ old with operation := operation }, q, ?_, rfl, hq,
      (movesNothing_withOperation operation _).trans hmoves⟩
    rw [node?_withOperation, if_pos rfl, hold, Option.map_some]

end Graph

theorem Permutation.treatedAs_inverse (m : Permutation) : m.TreatedAs m.inverse where
  shape := m.permuteShape?_eq
  shape_none _ := permuteShape?_eq_none_iff
  shape_ok _ := exists_permuted
  checked _ _ _ _ _ := Graph.checkOperation_conventions m
  accepted _ _ _ _ _ := Reference.accepts_of_reading rfl rfl rfl rfl rfl rfl
  computed _ _ _ _ _ _ _ := Reference.agree_of_reading rfl rfl rfl rfl rfl
  served f g id node a b hg hn hop ha hb := by
    have hq : node.operation.reading? = some m.inverse := by
      rcases hop with hop | hop <;> rw [hop] <;> rfl
    exact ⟨hg.sound.checkOperation_iff_served hn hq ha hb, fun w hw memory old => hw.runs hn hq⟩
  matched g id := by
    rw [Bool.eq_iff_iff,
      Graph.applies_withOperation_iff Rule.permuteAsReshape_flattens (q := m.inverse) rfl,
      Graph.applies_withOperation_iff Rule.transposeAsReshape_flattens (q := m.inverse) rfl]

/-- A permute is treated as the transpose by the inverse everywhere. Two permutes cancel just
when the transposes by the inverses do, and that is when each is the inverse of the other. -/
theorem permute_as_transpose (m : Permutation) :
    m.TreatedAs m.inverse ∧ ∀ b : Permutation,
      (Rule.permutesCancel (.permute m) (.permute b) = true ↔
        Rule.transposesCancel (.transpose m.inverse) (.transpose b.inverse) = true) ∧
      (Rule.permutesCancel (.permute m) (.permute b) = true ↔ b = m.inverse) := by
  refine ⟨m.treatedAs_inverse, fun b => ?_⟩
  have hpermutes : Rule.permutesCancel (.permute m) (.permute b) = true ↔ b = m.inverse :=
    Permutation.axesCancel_axes_iff
  have htransposes : Rule.transposesCancel (.transpose m.inverse) (.transpose b.inverse) = true ↔
      m.inverse = b := by
    rw [Rule.transposesCancel, Permutation.axesCancel_axes_iff, b.inverse_inverse]
  exact ⟨by rw [hpermutes, htransposes, eq_comm], hpermutes⟩

open Reference in
theorem permute_as_transpose_around :
    around.TreatedAs around.inverse ∧ ¬ around.TreatedAs around ∧
      Rule.permutesCancel (.permute around) (.permute around.inverse) = true ∧
      Rule.permutesCancel (.permute around) (.permute around) = false := by
  obtain ⟨htreated, hcancel⟩ := permute_as_transpose around
  refine ⟨htreated, fun h => ?_, (hcancel _).2.2 rfl, Bool.eq_false_iff.2 fun h => ?_⟩
  · exact absurd (h.shape block.shape) (by decide)
  · exact absurd ((hcancel around).2.1 h) (by decide)

end LayerGraph
