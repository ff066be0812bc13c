import LayerGraph.Proofs.Edits
import LayerGraph.Proofs.Linkage

/-!
# What every edit keeps

Edges agree at both ends and run in no cycle, and the bookkeeping of the arena is in step
with the nodes it holds.
-/

set_option autoImplicit false

namespace LayerGraph

open Relation

namespace Graph

theorem liveNodes_eq (g : Graph) : g.liveNodes = (List.range g.nodes.size).filterMap g.node? := by
  have hlist : g.nodes.toList = (List.range g.nodes.size).map fun i => (g.nodes[i]?).join := by
    apply List.ext_getElem?
    intro i
    rw [List.getElem?_map, Array.getElem?_toList]
    by_cases hi : i < g.nodes.size
    · simp [hi]
    · simp [Nat.le_of_not_lt hi]
  rw [liveNodes, hlist, List.filterMap_map]
  rfl

theorem length_liveNodes (g : Graph) :
    g.liveNodes.length = (List.range g.nodes.size).countP fun k => g.contains k := by
  rw [liveNodes_eq, List.length_filterMap_eq_countP]
  rfl

theorem contains_push (g : Graph) (operation : Operation) (name : String) (k : NodeId) :
    (g.push operation name).contains k = (k == g.nodes.size || g.contains k) := by
  rw [contains, node?_push]
  by_cases hk : k = g.nodes.size <;> simp [hk, contains]

theorem contains_drop (g : Graph) (id k : NodeId) :
    (g.drop id).contains k = (k != id && g.contains k) := by
  rw [contains, node?_drop]
  by_cases hk : k = id <;> simp [hk, contains]

theorem lt_size_of_contains {g : Graph} {id : NodeId} (h : g.contains id = true) :
    id < g.nodes.size := by
  by_contra hle
  simp [contains, node?_eq_none_of_size_le g (Nat.le_of_not_lt hle)] at h

theorem length_liveNodes_push (g : Graph) (operation : Operation) (name : String) :
    (g.push operation name).liveNodes.length = g.liveNodes.length + 1 := by
  have hcount : (List.range g.nodes.size).countP (fun k => (g.push operation name).contains k) =
      (List.range g.nodes.size).countP fun k => g.contains k := by
    apply List.countP_congr
    intro k hk
    have hne : k ≠ g.nodes.size := Nat.ne_of_lt (List.mem_range.1 hk)
    simp [contains_push, hne]
  have hsize : (g.push operation name).nodes.size = g.nodes.size + 1 := by simp [push]
  have hlast : (g.push operation name).contains g.nodes.size = true := by simp [contains_push]
  rw [length_liveNodes, hsize, List.range_succ, List.countP_append, hcount, ← length_liveNodes,
    List.countP_singleton, if_pos hlast]

theorem length_liveNodes_drop {g : Graph} {id : NodeId} (hid : g.contains id = true) :
    (g.drop id).liveNodes.length = g.liveNodes.length - 1 := by
  have herase : (List.range g.nodes.size).filter (fun k => (g.drop id).contains k) =
      ((List.range g.nodes.size).filter fun k => g.contains k).erase id := by
    rw [(List.nodup_range.filter _).erase_eq_filter, List.filter_filter]
    exact List.filter_congr fun k _ => contains_drop g id k
  have hsize : (g.drop id).nodes.size = g.nodes.size := by simp [drop]
  have hmem : id ∈ (List.range g.nodes.size).filter fun k => g.contains k := by
    simp [hid, lt_size_of_contains hid]
  rw [length_liveNodes, hsize, List.countP_eq_length_filter, herase,
    List.length_erase_of_mem hmem, ← List.countP_eq_length_filter, ← length_liveNodes]

theorem edge_of_unlink {g : Graph} {o : OutputSlot} {s : InputSlot} (hs : g.source? s = some o)
    {a b : NodeId} (h : (g.unlink o s).Edge a b) : g.Edge a b := by
  obtain ⟨i, p, hp, rfl⟩ := h
  rw [source?_unlink g o s (hasInput_of_source? hs)] at hp
  split at hp
  · cases hp
  · exact ⟨i, p, hp, rfl⟩

end Graph

structure NodeFrame.Fits (f : NodeFrame) (id : NodeId) : Prop where
  id_eq : f.id = id
  seq_eq : f.seq = id
  inputs : f.inputCount = f.operation.kind.numInputs
  outputs : f.descriptors.length = f.operation.kind.numOutputs

theorem NodeFrame.fits_fresh (id : NodeId) (name : String) (operation : Operation) :
    (Node.fresh id name operation id).frame.Fits id :=
  ⟨rfl, rfl, by simp [Node.frame, Node.fresh], by simp [Node.frame, Node.fresh]⟩

namespace Graph

/-- What every edit keeps. Sequence numbers are positions, since both count the nodes
ever added. -/
structure Sound (g : Graph) : Prop where
  fits : ∀ id f, g.frame? id = some f → f.Fits id
  nextSeq : g.nextSeq = g.nodes.size
  linked : g.Linked
  acyclic : g.Acyclic
  live : g.live = g.liveNodes.length
  related : ∀ entry ∈ g.related, g.contains entry.1 = true

namespace Sound

variable {g h : Graph}

theorem node_fits (hg : g.Sound) {id : NodeId} {node : Node} (hn : g.node? id = some node) :
    node.frame.Fits id := hg.fits id _ (frame?_eq_some_iff.2 ⟨node, hn, rfl⟩)

theorem node_id (hg : g.Sound) (id : NodeId) (node : Node) (hn : g.node? id = some node) :
    node.id = id := (hg.node_fits hn).id_eq

theorem node_seq (hg : g.Sound) {id : NodeId} {node : Node} (hn : g.node? id = some node) :
    node.seq = id := (hg.node_fits hn).seq_eq

theorem length_inputs (hg : g.Sound) {id : NodeId} {node : Node} (hn : g.node? id = some node) :
    node.inputs.length = node.kind.numInputs := (hg.node_fits hn).inputs

theorem length_outputs (hg : g.Sound) {id : NodeId} {node : Node} (hn : g.node? id = some node) :
    node.outputs.length = node.kind.numOutputs := by
  simpa [Node.frame, Node.kind] using (hg.node_fits hn).outputs

/-- Every node has the one output slot, except those that deliver to the caller. -/
theorem lt_outputs_iff (hg : g.Sound) {id : NodeId} {node : Node} (hn : g.node? id = some node)
    {i : Nat} : i < node.outputs.length ↔ node.kind ≠ .output ∧ i = 0 := by
  rw [hg.length_outputs hn]
  cases node.kind <;> simp [OperationKind.numOutputs]

theorem reaches_iff (hg : g.Sound) {a b : NodeId} :
    g.reaches a b = true ↔ ReflTransGen g.Edge a b := hg.linked.reaches_iff hg.node_id

theorem not_path_of_reaches (hg : g.Sound) {a b : NodeId} (hr : g.reaches a b = false) :
    ¬ ReflTransGen g.Edge a b := fun hp => by
  simp [hg.reaches_iff.2 hp] at hr

/-- Rewiring keeps what does not speak of edges. -/
theorem rewire (hg : g.Sound) (hs : g.SameNodes h) (hl : h.Linked) (hac : h.Acyclic) :
    h.Sound where
  fits id f hf := hg.fits id f (hs.frame? id ▸ hf)
  nextSeq := by rw [hs.nextSeq, hs.size, hg.nextSeq]
  linked := hl
  acyclic := hac
  live := by simp only [hs.live, hg.live, length_liveNodes, hs.size, hs.contains]
  related entry hm := by
    rw [hs.contains]
    exact hg.related entry (hs.related ▸ hm)

theorem empty : Graph.empty.Sound where
  fits id f hf := by simp [Graph.empty, frame?, node?] at hf
  nextSeq := rfl
  linked := ⟨fun s o => by simp [Graph.empty, source?, readers, node?],
    fun o => by simp [Graph.empty, readers, node?]⟩
  acyclic id hid := by
    have hno : ∀ a b, ¬ Graph.empty.Edge a b := by simp [Edge, Graph.empty, source?, node?]
    cases hid with
    | single he => exact hno _ _ he
    | tail _ he => exact hno _ _ he
  live := rfl
  related entry hm := by simp [Graph.empty] at hm

theorem push (hg : g.Sound) (operation : Operation) (name : String) :
    (g.push operation name).Sound where
  fits id f hf := by
    rw [frame?_push] at hf
    split at hf
    · rename_i hid
      obtain rfl := Option.some.inj hf
      rw [hid, hg.nextSeq]
      exact NodeFrame.fits_fresh _ _ _
    · exact hg.fits id f hf
  nextSeq := by simp [Graph.push, hg.nextSeq]
  linked := ⟨by simpa using hg.linked.source_iff, by simpa using hg.linked.readers_nodup⟩
  acyclic := acyclic_of_edge_imp hg.acyclic fun a b => by simp [Edge]
  live := by
    rw [length_liveNodes_push, ← hg.live]
    rfl
  related entry hm := by
    simp [contains_push, hg.related entry hm]

theorem setDescriptor (hg : g.Sound) (o : OutputSlot) (d : Descriptor) :
    (g.setDescriptor o d).Sound := by
  have hcontains : ∀ k, (g.setDescriptor o d).contains k = g.contains k := fun k => by
    rw [contains_eq_frame?, contains_eq_frame?, frame?_setDescriptor]
    split <;> simp
  refine ⟨fun id f hf => ?_, ?_, ?_, ?_, ?_, fun entry hm => ?_⟩
  · rw [frame?_setDescriptor] at hf
    split at hf
    · obtain ⟨f', hf', rfl⟩ := Option.map_eq_some_iff.1 hf
      have := hg.fits id f' hf'
      exact ⟨this.id_eq, this.seq_eq, this.inputs, by simpa using this.outputs⟩
    · exact hg.fits id f hf
  · rw [size_setDescriptor]
    exact hg.nextSeq
  · exact ⟨by simpa using hg.linked.source_iff, by simpa using hg.linked.readers_nodup⟩
  · exact acyclic_of_edge_imp hg.acyclic fun a b => by simp [Edge]
  · simp only [length_liveNodes, hcontains, size_setDescriptor]
    rw [← length_liveNodes]
    exact hg.live
  · rw [hcontains]
    exact hg.related entry hm

theorem link (hg : g.Sound) {o : OutputSlot} {s : InputSlot} (hc : Edit.CanConnect g o s) :
    (g.link o s).Sound := by
  refine hg.rewire (.link g o s) (hg.linked.link hc.output hc.input hc.free) ?_
  refine no_cycle_with_new_edges (R := g.Edge) (a := o.node) (B := (· = s.node)) ?_ hg.acyclic ?_
  · rintro x y ⟨i, p, hp, rfl⟩
    rw [source?_link g o s hc.input] at hp
    split at hp
    · rename_i hs
      obtain rfl := Option.some.inj hp
      exact .inr ⟨rfl, congrArg InputSlot.node hs⟩
    · exact .inl ⟨i, p, hp, rfl⟩
  · rintro _ rfl
    exact hg.not_path_of_reaches hc.ahead

theorem unlink (hg : g.Sound) {o : OutputSlot} {s : InputSlot} (hs : g.source? s = some o) :
    (g.unlink o s).Sound :=
  hg.rewire (.unlink g o s) (hg.linked.unlink hs)
    (acyclic_of_edge_imp hg.acyclic fun _ _ => edge_of_unlink hs)

theorem moveConsumers (hg : g.Sound) {o p : OutputSlot} (hc : Edit.CanMove g o p) :
    (g.moveConsumers o p (g.readers o)).Sound := by
  refine hg.rewire (.moveConsumers g o p _) (hg.linked.moveConsumers hc.source hc.target hc.ne) ?_
  refine no_cycle_with_new_edges (R := g.Edge) (a := p.node)
    (B := fun b => ∃ s ∈ g.readers o, s.node = b) ?_ hg.acyclic ?_
  · rintro x y ⟨i, q, hq, rfl⟩
    rw [source?_moveConsumers g o p _ fun s hs => hg.linked.hasInput_of_mem_readers hs] at hq
    split at hq
    · rename_i hm
      obtain rfl := Option.some.inj hq
      exact .inr ⟨rfl, _, hm, rfl⟩
    · exact .inl ⟨i, q, hq, rfl⟩
  · rintro _ ⟨s, hs, rfl⟩
    exact hg.not_path_of_reaches (hc.ahead s hs)

/-- Splicing a fresh node into the edge from `o` to `s`: first the edge out of the new node,
which nothing leads to yet, then the edge into it. -/
theorem splice_acyclic (hg : g.Sound) {operation : Operation} (name : String) {o : OutputSlot}
    {s : InputSlot} (d : Descriptor) (hs : g.source? s = some o)
    (hin : operation.kind.numInputs = 1) :
    ((g.push operation name).splice g.nodes.size o s d).Acyclic := by
  have hsi := hasInput_of_source? hs
  have ho := hg.linked.hasOutput_of_source? hs
  have hno_in : ∀ a, ¬ g.Edge a g.nodes.size := by
    rintro a ⟨i, p, hp, -⟩
    exact absurd (hasInput_of_source? hp).node_lt (Nat.lt_irrefl _)
  have hno_out : ∀ b, ¬ g.Edge g.nodes.size b := by
    rintro b ⟨i, p, hp, hpn⟩
    exact absurd (hg.linked.hasOutput_of_source? hp).node_lt (by simp [hpn])
  have hout : ∀ x, ¬ TransGen (fun x y => g.Edge x y ∨ x = g.nodes.size ∧ y = s.node) x x := by
    refine no_cycle_with_new_edges (B := (· = s.node)) (fun x y h => h) hg.acyclic ?_
    rintro _ rfl hp
    rcases hp.cases_tail with heq | ⟨a, -, he⟩
    · exact absurd hsi.node_lt (by simp [← heq])
    · exact hno_in a he
  refine no_cycle_with_new_edges (a := o.node) (B := (· = g.nodes.size)) ?_ hout ?_
  · rintro x y ⟨i, p, hp, rfl⟩
    rw [source?_splice_push name d hin hsi] at hp
    split at hp
    · rename_i hy
      obtain rfl := Option.some.inj hp
      exact .inl (.inr ⟨rfl, congrArg InputSlot.node hy⟩)
    · split at hp
      · rename_i hy
        obtain rfl := Option.some.inj hp
        exact .inr ⟨rfl, congrArg InputSlot.node hy⟩
      · exact .inl (.inl ⟨i, p, hp, rfl⟩)
  · rintro _ rfl hp
    rcases path_after_new_edge (B := (· = s.node)) (fun x y h => h) hp with hold | ⟨_, rfl, hold⟩
    · rcases hold.cases_head with heq | ⟨b, he, -⟩
      · exact absurd ho.node_lt (by simp [← heq])
      · exact hno_out b he
    · exact hg.acyclic s.node (TransGen.tail' hold (.of_source? hs))

theorem splice (hg : g.Sound) {operation : Operation} (name : String) {o : OutputSlot}
    {s : InputSlot} (d : Descriptor) (hs : g.source? s = some o)
    (hin : operation.kind.numInputs = 1) (hout : operation.kind.numOutputs = 1) :
    ((g.push operation name).splice g.nodes.size o s d).Sound := by
  -- up to wiring, the new graph is the pushed one with a descriptor set
  have hbase := (hg.push operation name).setDescriptor ⟨g.nodes.size, 0⟩ d
  refine hbase.rewire ?_ (hg.linked.splice name d hs hin hout)
    (hg.splice_acyclic name d hs hin)
  refine ⟨fun k => ?_, ?_, rfl, rfl, rfl⟩
  · rw [splice_eq, frame?_setInput, frame?_updateConsumers, frame?_updateConsumers,
      frame?_setDescriptor, frame?_setInput, frame?_setDescriptor]
  · rw [splice_eq, size_setInput, size_updateConsumers, size_updateConsumers, size_setDescriptor,
      size_setInput, size_setDescriptor]

theorem setRelated (hg : g.Sound) {id : NodeId} (hid : g.contains id = true)
    (labels : List NodeLabel) : (g.setRelated id labels).Sound where
  fits := hg.fits
  nextSeq := hg.nextSeq
  linked := ⟨hg.linked.source_iff, hg.linked.readers_nodup⟩
  acyclic := hg.acyclic
  live := hg.live
  related entry hm := by
    rcases List.mem_cons.1 hm with rfl | hm
    · exact hid
    · exact hg.related entry (List.mem_of_mem_filter hm)

/-- Dropping a node that nothing is wired to. -/
theorem drop (hg : g.Sound) {id : NodeId} (hid : g.contains id = true)
    (hout : ∀ i, g.readers ⟨id, i⟩ = []) (hin : ∀ i, g.source? ⟨id, i⟩ = none) :
    (g.drop id).Sound := by
  have hsource : ∀ t, (g.drop id).source? t = g.source? t := by
    intro t
    rw [source?_drop]
    split
    · rename_i ht
      rw [show t = ⟨id, t.index⟩ by rw [← ht], hin]
    · rfl
  have hreaders : ∀ o, (g.drop id).readers o = g.readers o := by
    intro o
    rw [readers_drop]
    split
    · rename_i ho
      rw [show o = ⟨id, o.index⟩ by rw [← ho], hout]
    · rfl
  refine ⟨fun k f hf => ?_, ?_, ?_, ?_, ?_, fun entry hm => ?_⟩
  · rw [frame?_drop] at hf
    split at hf
    · cases hf
    · exact hg.fits k f hf
  · simpa [Graph.drop] using hg.nextSeq
  · exact ⟨by simpa [hsource, hreaders] using hg.linked.source_iff,
      by simpa [hreaders] using hg.linked.readers_nodup⟩
  · exact acyclic_of_edge_imp hg.acyclic fun a b => by simp [Edge, hsource]
  · rw [length_liveNodes_drop hid, ← hg.live]
    rfl
  · obtain ⟨hm, hne⟩ := List.mem_filter.1 hm
    simp only [bne_iff_ne, ne_eq] at hne
    simp [contains_drop, hne, hg.related entry hm]

theorem detachAll (hg : g.Sound) (id : NodeId) (count : Nat) : (g.detachAll id count).Sound := by
  refine hg.rewire (.detachAll g id _) (hg.linked.detachAll id _)
    (acyclic_of_edge_imp hg.acyclic ?_)
  rintro x y ⟨i, p, hp, rfl⟩
  rw [Graph.detachAll, source?_detachAll] at hp
  split at hp
  · cases hp
  · exact ⟨i, p, hp, rfl⟩

end Sound

/-- A graph without one of its nodes, which had `count` inputs. -/
def without (g : Graph) (id : NodeId) (count : Nat) : Graph := (g.detachAll id count).drop id

section Removing

variable {g : Graph} {id : NodeId} {node : Node}

theorem hasConsumers_eq_false_iff (hn : g.node? id = some node) :
    node.hasConsumers = false ↔ ∀ i, g.readers ⟨id, i⟩ = [] := by
  simp only [readers_of_node hn, Node.hasConsumers, Node.consumers, List.any_eq_false]
  constructor
  · intro h i
    cases hi : node.outputs[i]? with
    | none => rfl
    | some out => simpa using h out (List.mem_of_getElem? hi)
  · intro h out hm
    obtain ⟨i, hi⟩ := List.mem_iff_getElem?.1 hm
    have hi := h i
    simp_all

theorem frame?_without (k : NodeId) (count : Nat) :
    (g.without id count).frame? k = if k = id then none else g.frame? k := by
  rw [without, frame?_drop, Graph.detachAll, (SameNodes.detachAll g id _).frame?]

theorem source?_without (count : Nat) (t : InputSlot) :
    (g.without id count).source? t = if t.node = id then none else g.source? t := by
  rw [without, source?_drop, Graph.detachAll, source?_detachAll]
  by_cases ht : t.node = id <;> simp [ht]

theorem Sound.without (hg : g.Sound) (hn : g.node? id = some node)
    (hc : node.hasConsumers = false) : (g.without id node.inputs.length).Sound := by
  have hd := hg.detachAll id node.inputs.length
  have hunread := (hasConsumers_eq_false_iff hn).1 hc
  have hsource : ∀ t, (g.detachAll id node.inputs.length).source? t =
      if t.node = id ∧ t.index ∈ List.range node.inputs.length then none else g.source? t :=
    source?_detachAll g id _
  refine hd.drop ?_ (fun i => List.eq_nil_iff_forall_not_mem.2 fun s hs => ?_) fun i => ?_
  · rw [Graph.detachAll, (SameNodes.detachAll g id _).contains]
    exact contains_iff.2 ⟨node, hn⟩
  · have hs := (hd.linked.source_iff s ⟨id, i⟩).2 hs
    rw [hsource] at hs
    split at hs
    · cases hs
    · have := (hg.linked.source_iff s ⟨id, i⟩).1 hs
      simp [hunread i] at this
  · rw [hsource]
    split
    · rfl
    · rename_i hi
      have hi : node.inputs.length ≤ i := by simpa using hi
      rw [source?_of_node hn, Node.input?, List.getElem?_eq_none hi]
      rfl

end Removing

end Graph

end LayerGraph
