import LayerGraph.Proofs.Schedule
import LayerGraph.Proofs.Workloads

/-!
# Well-typed graphs

The checks of a graph come to one statement about each node: its operation takes the
descriptors of what it reads to the descriptor of what it writes. A graph is valid when
every node is typed so and the boundary has a binding table.
-/

set_option autoImplicit false

namespace LayerGraph

open Permutation (gatherDims)

namespace Shape

theorem volume_pos {dims : List Nat} (hpos : ∀ d ∈ dims, 0 < d) : 0 < volume dims := by
  induction dims with
  | nil => simp
  | cons dim rest ih =>
    rw [List.forall_mem_cons] at hpos
    exact Nat.mul_pos hpos.1 (ih hpos.2)

/-- Positive dimensions whose product is in range are passed over: the products on the way are no
larger. -/
theorem faultFrom_append {dims before : List Nat} (rest : List Nat) {axis count : Nat}
    (hpos : ∀ d ∈ before, 0 < d) (hlt : count * volume before < indexLimit) :
    faultFrom dims axis count (before ++ rest) =
      faultFrom dims (axis + before.length) (count * volume before) rest := by
  induction before generalizing axis count with
  | nil => simp
  | cons dim before ih =>
    have hdim := hpos dim List.mem_cons_self
    have hbefore : ∀ d ∈ before, 0 < d := fun d hd => hpos d (List.mem_cons_of_mem _ hd)
    rw [volume_cons, ← Nat.mul_assoc] at hlt ⊢
    have hle : count * dim ≤ count * dim * volume before :=
      Nat.le_mul_of_pos_right _ (volume_pos hbefore)
    rw [List.cons_append, faultFrom, if_neg (by omega), if_neg (by omega), ih hbefore hlt,
      List.length_cons, Nat.add_assoc, Nat.add_comm 1]

/-- The dimensions of a shape give that shape, and no other dimensions do. -/
theorem ofDims_eq_ok_iff {dims : List Nat} {s : Shape} : ofDims dims = .ok s ↔ dims = s.dims := by
  rw [ofDims]
  constructor
  · split
    · simp
    · rintro h
      cases h
      rfl
  · rintro rfl
    have hnone : fault? s.dims = none := by
      rw [fault?, if_neg (by simpa using s.dims_ne_nil)]
      have hpass : faultFrom s.dims 0 1 (s.dims ++ []) = none :=
        faultFrom_append [] s.dims_pos (by simpa using s.volume_lt)
      rwa [List.append_nil] at hpass
    split
    · simp_all
    · rfl

/-- The dimensions of a shape make one in any order. -/
theorem exists_of_perm {s : Shape} {dims : List Nat} (h : dims.Perm s.dims) :
    ∃ t : Shape, t.dims = dims ∧ t.numElements = s.numElements := by
  have hvolume : volume dims = volume s.dims := volume_perm h
  refine ⟨⟨dims, ?_, fun d hd => s.dims_pos d (h.mem_iff.1 hd), hvolume ▸ s.volume_lt⟩, rfl,
    hvolume⟩
  rintro rfl
  exact s.dims_ne_nil h.nil_eq.symm

end Shape

namespace Permutation

variable {p : Permutation} {s t : Shape}

theorem transposeShape?_eq_some_iff : p.transposeShape? s = some (.ok t) ↔
    p.axes.length = s.dims.length ∧ gatherDims s.dims p.axes = t.dims := by
  simp only [transposeShape?, Shape.rank, length]
  by_cases h : s.dims.length = p.axes.length
  · simp [h, Shape.ofDims_eq_ok_iff]
  · simp [h, Ne.symm h]

theorem permuteShape?_eq_some_iff : p.permuteShape? s = some (.ok t) ↔
    p.inverse.axes.length = s.dims.length ∧ gatherDims s.dims p.inverse.axes = t.dims := by
  simp only [permuteShape?, Shape.rank, length, length_inverse]
  by_cases h : s.dims.length = p.axes.length
  · simp [h, scatterDims_eq h, Shape.ofDims_eq_ok_iff]
  · simp [h, Ne.symm h]

end Permutation

theorem checkShape_eq_ok_iff {node : Node} {reason : String}
    {expected : Option (Except DescriptorError Shape)} {output : Shape} :
    Graph.checkShape node reason expected output = .ok () ↔ expected = some (.ok output) := by
  unfold Graph.checkShape
  split
  · simp
  · split <;> simp_all
  · simp

namespace Graph

variable {g : Graph} {id : NodeId} {node : Node}

theorem inputDescriptor?_eq (s : InputSlot) :
    g.inputDescriptor? s = (g.source? s).bind g.outputDescriptor? := by
  cases hs : g.source? s with
  | some o =>
    have hp := producer_eq_ok_iff.2 ⟨hasInput_of_source? hs, hs⟩
    simp [inputDescriptor?, hp]
  | none =>
    rw [inputDescriptor?]
    split
    · rename_i o hp
      simp [(producer_eq_ok_iff.1 hp).2] at hs
    · rfl

theorem outputDescriptor?_of_node (hn : g.node? id = some node) (i : Nat) :
    g.outputDescriptor? ⟨id, i⟩ = node.outputDescriptor? i := by
  simp [outputDescriptor?, hn]

theorem outputDescriptor?_eq_frame (o : OutputSlot) :
    g.outputDescriptor? o = (g.frame? o.node).bind fun f => (f.descriptors[o.index]?).join := by
  cases hn : g.node? o.node with
  | none => simp [outputDescriptor?, frame?, hn]
  | some node =>
    simp only [outputDescriptor?, frame?, hn, Option.map_some, Option.bind_some, Node.frame,
      Node.outputDescriptor?, List.getElem?_map]
    cases node.outputs[o.index]? <;> rfl

theorem map_source?_range (hg : g.Sound) (hn : g.node? id = some node) :
    (List.range node.kind.numInputs).map (fun i => g.source? ⟨id, i⟩) = node.inputs := by
  apply List.ext_getElem (by simp [hg.length_inputs hn])
  intro i h₁ h₂
  simp [source?_of_node hn, Node.input?, h₂]

/-- A node reads and writes tensors that its operation takes. An input node reads, and an
output node writes, the caller's tensor, described like its own. -/
structure Typed (g : Graph) (id : NodeId) (operation : Operation) (reads : List Descriptor)
    (written : Descriptor) : Prop where
  takes : operation.Takes reads written
  reads_eq : operation.kind ≠ .input →
    (List.range operation.kind.numInputs).map (fun i => g.inputDescriptor? ⟨id, i⟩) =
      reads.map some
  written_eq : operation.kind ≠ .output → g.outputDescriptor? ⟨id, 0⟩ = some written

/-- A node has no more than one type. -/
theorem Typed.unique {operation : Operation} {reads reads' : List Descriptor}
    {written written' : Descriptor} (h : g.Typed id operation reads written)
    (h' : g.Typed id operation reads' written') : reads = reads' ∧ written = written' := by
  have hreads : operation.kind ≠ .input → reads = reads' := fun hk =>
    List.map_injective_iff.2 (Option.some_injective _) ((h.reads_eq hk).symm.trans (h'.reads_eq hk))
  have hwritten : operation.kind ≠ .output → written = written' := fun hk =>
    Option.some.inj ((h.written_eq hk).symm.trans (h'.written_eq hk))
  by_cases hin : operation.kind = .input
  · have hw := hwritten (by simp [hin])
    rw [h.takes.reads_of_boundary (.inl hin), h'.takes.reads_of_boundary (.inl hin), hw]
    exact ⟨rfl, rfl⟩
  by_cases hout : operation.kind = .output
  · have hr := hreads hin
    rw [h.takes.reads_of_boundary (.inr hout), h'.takes.reads_of_boundary (.inr hout)] at hr ⊢
    exact ⟨hr, (List.cons.inj hr).1⟩
  · exact ⟨hreads hin, hwritten hout⟩

theorem checkComplete_eq_ok_iff : checkComplete node = .ok () ↔
    (∀ producer ∈ node.inputs, producer.isSome = true) ∧
      ∀ out ∈ node.outputs, out.descriptor.isSome = true := by
  rw [checkComplete]
  cases hi : node.inputs.findIdx? Option.isNone with
  | some index =>
    obtain ⟨hlt, hnone, -⟩ := List.findIdx?_eq_some_iff_getElem.1 hi
    simp only [reduceCtorEq, false_iff, not_and]
    intro hall
    have := hall _ (List.getElem_mem hlt)
    simp_all
  | none =>
    have hin := List.findIdx?_eq_none_iff.1 hi
    cases ho : node.outputs.findIdx? fun out => out.descriptor.isNone with
    | some index =>
      obtain ⟨hlt, hnone, -⟩ := List.findIdx?_eq_some_iff_getElem.1 ho
      simp only [reduceCtorEq, false_iff, not_and]
      intro _ hall
      have := hall _ (List.getElem_mem hlt)
      simp_all
    | none =>
      have hout := List.findIdx?_eq_none_iff.1 ho
      simp only [true_iff]
      exact ⟨fun x hx => by simpa using hin x hx, fun x hx => by simpa using hout x hx⟩

/-- With every node complete, every tensor that a node reads is described. -/
theorem exists_reads (hg : g.Sound)
    (hc : ∀ id node, g.node? id = some node → checkComplete node = .ok ())
    (hn : g.node? id = some node) :
    ∃ reads : List Descriptor,
      (List.range node.kind.numInputs).map (fun i => g.inputDescriptor? ⟨id, i⟩) =
        reads.map some := by
  apply exists_eq_map_some
  intro x hx
  obtain ⟨i, hi, rfl⟩ := List.mem_map.1 hx
  have hsource : g.source? ⟨id, i⟩ ∈ node.inputs := by
    rw [← map_source?_range hg hn]
    exact List.mem_map_of_mem hi
  have hin := (checkComplete_eq_ok_iff.1 (hc id node hn)).1 _ hsource
  obtain ⟨o, ho⟩ := Option.isSome_iff_exists.1 hin
  obtain ⟨producer, hp, hlt⟩ := hg.linked.hasOutput_of_source? ho
  have hout := (checkComplete_eq_ok_iff.1 (hc _ producer hp)).2 _ (List.getElem_mem hlt)
  rw [inputDescriptor?_eq, ho, Option.bind_some, outputDescriptor?, hp]
  simpa [Node.outputDescriptor?, hlt] using hout

theorem exists_written (hg : g.Sound) (hc : checkComplete node = .ok ())
    (hn : g.node? id = some node) (hout : node.kind ≠ .output) :
    ∃ written, g.outputDescriptor? ⟨id, 0⟩ = some written := by
  have hpos : 0 < node.outputs.length := (hg.lt_outputs_iff hn).2 ⟨hout, rfl⟩
  have hsome := (checkComplete_eq_ok_iff.1 hc).2 _ (List.getElem_mem hpos)
  apply Option.isSome_iff_exists.1
  simpa [outputDescriptor?_of_node hn, Node.outputDescriptor?, hpos] using hsome

section Agreement

variable {reads : List Descriptor} {written : Descriptor}

theorem checkTypes_eq_ok_iff (hg : g.Sound) (hn : g.node? id = some node)
    (hreads : (List.range node.kind.numInputs).map (fun i => g.inputDescriptor? ⟨id, i⟩) =
      reads.map some) :
    g.checkTypes node written = .ok () ↔ ∀ d ∈ reads, d.dataType = written.dataType := by
  have hinputs : (node.inputs.filterMap fun producer => producer.bind g.outputDescriptor?) =
      reads := by
    have hsame : ∀ i, ((g.source? ⟨id, i⟩).bind g.outputDescriptor?) = g.inputDescriptor? ⟨id, i⟩ :=
      fun i => (inputDescriptor?_eq _).symm
    rw [← map_source?_range hg hn, List.filterMap_map]
    simp only [Function.comp_def, hsame]
    have := congrArg (List.filterMap fun d => d) hreads
    simpa [List.filterMap_map, Function.comp_def] using this
  rw [checkTypes, hinputs]
  split
  · simp_all
  · rename_i h
    simpa using h

/-- Agreement of the parameters is what the operation takes. -/
theorem checkOperation_eq_ok_iff (hg : g.Sound) (hn : g.node? id = some node)
    (hin : node.kind ≠ .input) (hout : node.kind ≠ .output)
    (hreads : (List.range node.kind.numInputs).map (fun i => g.inputDescriptor? ⟨id, i⟩) =
      reads.map some)
    (hwritten : g.outputDescriptor? ⟨id, 0⟩ = some written) :
    g.checkOperation node = .ok () ↔ node.operation.Takes reads written := by
  have htypes : g.checkTypes node written = .ok () ↔ _ := checkTypes_eq_ok_iff hg hn hreads
  rw [outputDescriptor?_of_node hn] at hwritten
  have hunary : node.kind.numInputs = 1 →
      ∃ a, reads = [a] ∧ g.inputDescriptor? ⟨id, 0⟩ = some a := by
    intro h
    rw [h] at hreads
    obtain _ | ⟨a, _ | ⟨b, rest⟩⟩ := reads <;> simp_all
  unfold checkOperation
  rw [hg.node_id id node hn, hwritten]
  unfold Node.kind at hin hout hunary
  cases hop : node.operation with
  | input b => simp [hop, Operation.kind] at hin
  | output b => simp [hop, Operation.kind] at hout
  | permute p =>
    obtain ⟨a, rfl, ha⟩ := hunary (by rw [hop]; rfl)
    rw [ha, Operation.takes_iff_of_reading (p := p.inverse) rfl]
    simp only [check_bind_eq_ok_iff, checkShape_eq_ok_iff, Permutation.permuteShape?_eq_some_iff,
      htypes, List.forall_mem_singleton, and_assoc]
  | transpose p =>
    obtain ⟨a, rfl, ha⟩ := hunary (by rw [hop]; rfl)
    rw [ha, Operation.takes_iff_of_reading (p := p) rfl]
    simp only [check_bind_eq_ok_iff, checkShape_eq_ok_iff, Permutation.transposeShape?_eq_some_iff,
      htypes, List.forall_mem_singleton, and_assoc]
  | reshape target =>
    obtain ⟨a, rfl, ha⟩ := hunary (by rw [hop]; rfl)
    rw [ha, Operation.takes_reshape_iff]
    simp only [ite_error_eq_ok_iff, htypes, List.forall_mem_singleton, not_or, ne_eq, not_not,
      and_assoc]
  | addition =>
    obtain ⟨a, c, rfl, ha, hc⟩ : ∃ a c, reads = [a, c] ∧ g.inputDescriptor? ⟨id, 0⟩ = some a ∧
        g.inputDescriptor? ⟨id, 1⟩ = some c := by
      simp only [Node.kind, hop, Operation.kind, OperationKind.numInputs] at hreads
      obtain _ | ⟨a, _ | ⟨c, _ | ⟨d, rest⟩⟩⟩ := reads <;> simp_all [List.range_succ]
    rw [ha, Operation.takes_addition_iff]
    simp only [hc, Option.map_some, ite_error_eq_ok_iff, htypes, not_or, ne_eq, not_not,
      Option.some.injEq, List.forall_mem_cons, and_assoc]
    simp

theorem exists_typed (hg : g.Sound)
    (hc : ∀ id node, g.node? id = some node → checkComplete node = .ok ())
    (hn : g.node? id = some node) (hop : g.checkOperation node = .ok ()) :
    ∃ reads written, g.Typed id node.operation reads written := by
  obtain ⟨reads, hreads⟩ := exists_reads hg hc hn
  by_cases hin : node.kind = .input
  · obtain ⟨written, hwritten⟩ := exists_written hg (hc id node hn) hn (by simp [hin])
    refine ⟨[written], written, ?_, fun h => absurd hin h, fun _ => hwritten⟩
    cases ho : node.operation <;> simp_all [Node.kind, Operation.kind]
    exact .input _ _
  by_cases hout : node.kind = .output
  · obtain ⟨d, rfl⟩ : ∃ d, reads = [d] := by
      rw [hout] at hreads
      exact List.length_eq_one_iff.1 (by simpa [OperationKind.numInputs] using
        (congrArg List.length hreads).symm)
    refine ⟨[d], d, ?_, fun _ => hreads, fun h => absurd hout h⟩
    cases ho : node.operation <;> simp_all [Node.kind, Operation.kind]
    exact .output _ _
  · obtain ⟨written, hwritten⟩ := exists_written hg (hc id node hn) hn hout
    exact ⟨reads, written, (checkOperation_eq_ok_iff hg hn hin hout hreads hwritten).1 hop,
      fun _ => hreads, fun _ => hwritten⟩

theorem Typed.checkComplete (h : g.Typed id node.operation reads written) (hg : g.Sound)
    (hn : g.node? id = some node) : checkComplete node = .ok () := by
  refine checkComplete_eq_ok_iff.2 ⟨fun producer hp => ?_, fun out hout => ?_⟩
  · rw [← map_source?_range hg hn] at hp
    obtain ⟨i, hi, rfl⟩ := List.mem_map.1 hp
    have hin : node.operation.kind ≠ .input := by
      intro hk
      simp [Node.kind, hk, OperationKind.numInputs] at hi
    have hmem : g.inputDescriptor? ⟨id, i⟩ ∈ reads.map some := by
      rw [← h.reads_eq hin]
      exact List.mem_map_of_mem hi
    obtain ⟨d, -, hd⟩ := List.mem_map.1 hmem
    rw [inputDescriptor?_eq] at hd
    obtain ⟨o, ho, -⟩ := Option.bind_eq_some_iff.1 hd.symm
    simp [ho]
  · obtain ⟨i, hi⟩ := List.mem_iff_getElem?.1 hout
    obtain ⟨hkind, rfl⟩ := (hg.lt_outputs_iff hn).1 (List.getElem?_eq_some_iff.1 hi).1
    have hw := h.written_eq hkind
    rw [outputDescriptor?_of_node hn, Node.outputDescriptor?, hi] at hw
    simpa using Option.isSome_iff_exists.2 ⟨written, hw⟩

theorem Typed.checkOperation (h : g.Typed id node.operation reads written) (hg : g.Sound)
    (hn : g.node? id = some node) : g.checkOperation node = .ok () := by
  by_cases hin : node.kind = .input
  · cases ho : node.operation <;> simp_all [Node.kind, Operation.kind, Graph.checkOperation]
  by_cases hout : node.kind = .output
  · cases ho : node.operation <;> simp_all [Node.kind, Operation.kind, Graph.checkOperation]
  · exact (checkOperation_eq_ok_iff hg hn hin hout (h.reads_eq hin) (h.written_eq hout)).2 h.takes

end Agreement

/-- A sound graph whose nodes are typed and whose boundary has the given bindings. -/
structure Valid (g : Graph) (table : BindingTable) : Prop where
  sound : g.Sound
  typed : ∀ id node, g.node? id = some node →
    ∃ reads written, g.Typed id node.operation reads written
  bindings : g.bindingTable = .ok table

theorem Sound.validate_eq_ok_iff (hg : g.Sound) :
    g.validate = .ok () ↔ ∃ table, g.Valid table := by
  have hlive : ∀ f : Node → Except GraphError Unit, g.liveNodes.forM f = .ok () ↔
      ∀ id node, g.node? id = some node → f node = .ok () := by
    intro f
    rw [forM_eq_ok_iff]
    exact ⟨fun h id node hn => h node (mem_liveNodes.2 ⟨id, hn⟩), fun h node hm => by
      obtain ⟨id, hn⟩ := mem_liveNodes.1 hm
      exact h id node hn⟩
  rw [hg.validate_eq, check_bind_eq_ok_iff, check_bind_eq_ok_iff, hlive, hlive,
    except_bind_eq_ok_iff]
  constructor
  · rintro ⟨hc, ho, table, ht, -⟩
    exact ⟨table, hg, fun id node hn => exists_typed hg hc hn (ho id node hn), ht⟩
  · rintro ⟨table, -, htyped, ht⟩
    refine ⟨fun id node hn => ?_, fun id node hn => ?_, table, ht, rfl⟩
    · obtain ⟨_, _, h⟩ := htyped id node hn
      exact h.checkComplete hg hn
    · obtain ⟨_, _, h⟩ := htyped id node hn
      exact h.checkOperation hg hn

end Graph

end LayerGraph
