import LayerGraph.Proofs.Substitution

/-!
# Updates that change no output

Dropping a node that nothing reads, reading a tensor where an equal one was read, letting a
reshape read what its parent reads, and putting a reshape in the place of a node that moves
no elements: each gives a graph that revises the one before.
-/

set_option autoImplicit false

namespace LayerGraph

open Permutation (gatherDims)

namespace Operation

def Arranges (operation : Operation) : Prop :=
  operation.kind = .reshape ∨ operation.kind = .permute ∨ operation.kind = .transpose

theorem arranges_of_reading {operation : Operation} {p : Permutation}
    (h : operation.reading? = some p) : operation.Arranges := .inr (kind_of_reading h)

theorem arranges_of_isReshape {operation : Operation} (h : operation.isReshape = true) :
    operation.Arranges ∧ ∃ target, operation = .reshape target := by
  cases operation <;> simp_all [isReshape, kind, Arranges]

theorem Arranges.kind_eq {operation : Operation} (h : operation.Arranges) :
    operation.kind ≠ .input ∧ operation.kind ≠ .output ∧ operation.kind.numInputs = 1 := by
  rcases h with h | h | h <;> rw [h] <;> decide

end Operation

namespace Memory

variable {m : Memory} {dims : List Nat}

theorem reorder_reorder {first second : Permutation} (h : Cancel first second)
    (hd : dims.length = first.axes.length) (hs : m.size = volume dims) :
    (m.reorder dims first.axes).reorder (gatherDims dims first.axes) second.axes = m := by
  obtain ⟨s, data⟩ := m
  have hback := h.reordered_eq hd (0 : BitVec s.bits) hs
  exact congrArg (fun elements : List (BitVec s.bits) => Memory.mk s elements.toArray) hback

theorem reorder_of_layoutPreserving {p : Permutation} (h : isLayoutPreserving dims p.axes = true)
    (hs : m.size = volume dims) : m.reorder dims p.axes = m := by
  obtain ⟨s, data⟩ := m
  have hsame := reordered_of_layoutPreserving h (0 : BitVec s.bits) hs
  exact congrArg (fun elements : List (BitVec s.bits) => Memory.mk s elements.toArray) hsame

end Memory

namespace Graph

variable {f : FloatAddition} {table : BindingTable} {g : Graph} {id : NodeId} {node : Node}
  {o p : OutputSlot} {a : Descriptor} {inputs : String → Option Memory}

theorem Sound.value?_reshape (hg : g.Sound) {target : Shape} (hn : g.node? id = some node)
    (hop : node.operation = .reshape target) (ho : g.source? ⟨id, 0⟩ = some o) :
    g.value? f inputs id = g.value? f inputs o.node := by
  rw [source?_of_node hn] at ho
  rw [hg.value?_eq]
  simp [nodeValue, hn, hop, ho]

theorem Sound.value?_reading (hg : g.Sound) {q : Permutation} (hn : g.node? id = some node)
    (hop : node.operation.reading? = some q) (ho : g.source? ⟨id, 0⟩ = some o)
    (ha : g.outputDescriptor? o = some a) :
    g.value? f inputs id =
      (g.value? f inputs o.node).map (·.reorder a.shape.dims q.axes) := by
  have hin : g.inputDescriptor? ⟨id, 0⟩ = some a := by
    rw [inputDescriptor?_eq, ho, Option.bind_some, ha]
  rw [source?_of_node hn] at ho
  rw [hg.value?_eq]
  cases hk : node.operation <;> simp_all [nodeValue, Operation.reading?] <;>
    cases g.value? f inputs o.node <;> simp

/-- What stands at an output that is read has a value, with as many elements as described. -/
theorem Valid.source_value (hv : g.Valid table) (hs : g.Supported) (hf : table.Fed inputs)
    {s : InputSlot} (ho : g.source? s = some o) (ha : g.outputDescriptor? o = some a) :
    ∃ m, g.value? f inputs o.node = some m ∧ m.size = volume a.shape.dims := by
  obtain ⟨producer, reads, written, hp, -, -, ht, hin⟩ := hv.source ho
  obtain ⟨-, m, -, -, -, hm, he⟩ := hv.value (f := f) hs hf hp ht
  rw [inputDescriptor?_eq, ho, Option.bind_some, ha] at hin
  obtain rfl := Option.some.inj hin
  exact ⟨m, hm, congrArg Extent.size he⟩

theorem node?_ne_none {h : Graph} (hf : h.frame? id = g.frame? id) (hn : g.node? id = some node) :
    h.node? id ≠ none := by
  obtain ⟨other, hother, -⟩ := exists_node_of_frame hf hn
  simp [hother]

theorem Carries.refl {h : Graph} {origin : NodeId → NodeId}
    (hframe : h.frame? o.node = g.frame? o.node) (horigin : origin o.node = o.node) :
    Carries f table g h origin o o :=
  ⟨by rw [outputDescriptor?_eq_frame, outputDescriptor?_eq_frame, hframe],
    fun _ _ _ => by rw [horigin]⟩

section Updates

variable (hv : g.Valid table)

include hv

/-- Dropping a node that nothing reads. -/
theorem Valid.revises_without (hn : g.node? id = some node) (hc : node.hasConsumers = false)
    (ha : node.operation.Arranges) : Revises f table g (g.without id node.inputs.length) := by
  have hunread := (hasConsumers_eq_false_iff hn).1 hc
  suffices hsub : Substitutes f table g (g.without id node.inputs.length) fun k => k from
    hsub.revises hv
  refine ⟨hv.sound.without hn hc, fun k other hk => .inl ?_, fun k other hk hgone => ?_⟩
  · have hlive : ∀ k, k ≠ id → (g.without id node.inputs.length).frame? k = g.frame? k :=
      fun k hne => by rw [frame?_without, if_neg hne]
    have hne : k ≠ id := by
      rintro rfl
      have := frame?_eq_some_iff.2 ⟨other, hk, rfl⟩
      simp [frame?_without] at this
    refine ⟨hlive k hne, rfl, fun i => ?_⟩
    rw [source?_without, if_neg hne]
    cases ho : g.source? ⟨k, i⟩ with
    | none => exact .none
    | some o =>
      -- a producer that is read is not the node that nothing reads
      refine .some (.refl (hlive o.node ?_) rfl)
      rintro rfl
      have := (hv.sound.linked.source_iff _ _).1 ho
      rw [show o = ⟨o.node, o.index⟩ from rfl, hunread o.index] at this
      cases this
  · by_cases hne : k = id
    · subst hne
      obtain rfl := Option.some.inj (hn.symm.trans hk)
      exact ⟨ha.kind_eq.1, ha.kind_eq.2.1⟩
    · refine absurd hgone (node?_ne_none ?_ hk)
      rw [frame?_without, if_neg hne]

theorem Valid.contains_of_source? {s : InputSlot} (ho : g.source? s = some o) :
    ∃ producer, g.node? o.node = some producer := by
  obtain ⟨producer, hp, -⟩ := hv.sound.linked.hasOutput_of_source? ho
  exact ⟨producer, hp⟩

/-- The same nodes, each reading tensors equal to those it read. -/
theorem Valid.revises_rewired {h : Graph} (hh : h.Sound) (hframe : ∀ k, h.frame? k = g.frame? k)
    (hsource : ∀ t, h.source? t = g.source? t ∨ ∃ o p, h.source? t = some o ∧
      g.source? t = some p ∧ g.outputDescriptor? o = g.outputDescriptor? p ∧ (g.Supported →
        ∀ inputs, table.Fed inputs → g.value? f inputs o.node = g.value? f inputs p.node)) :
    Revises f table g h := by
  suffices hsub : Substitutes f table g h fun k => k from hsub.revises hv
  refine ⟨hh, fun k node hk => .inl ⟨hframe k, rfl, fun i => ?_⟩, fun k node hk hgone => ?_⟩
  · rcases hsource ⟨k, i⟩ with heq | ⟨o, p, ho, hp, hd, hvalue⟩
    · rw [heq]
      cases g.source? ⟨k, i⟩ with
      | none => exact .none
      | some o => exact .some (.refl (hframe o.node) rfl)
    · rw [ho, hp]
      refine .some ⟨?_, hvalue⟩
      rw [← hd, outputDescriptor?_eq_frame, outputDescriptor?_eq_frame, hframe]
  · exact absurd hgone (node?_ne_none (hframe k) hk)

/-- Letting all readers of a tensor read an equal one. -/
theorem Valid.revises_moveConsumers (hc : Edit.CanMove g p o)
    (hd : g.outputDescriptor? o = g.outputDescriptor? p)
    (hvalue : g.Supported → ∀ inputs, table.Fed inputs →
      g.value? f inputs o.node = g.value? f inputs p.node) :
    Revises f table g (g.moveConsumers p o (g.readers p)) := by
  refine hv.revises_rewired (hv.sound.moveConsumers hc) (frame?_moveConsumers g p o _)
    fun t => ?_
  rw [source?_moveConsumers g p o _ fun s => hv.sound.linked.hasInput_of_mem_readers]
  split
  · rename_i ht
    exact .inr ⟨o, p, rfl, (hv.sound.linked.source_iff t p).2 ht, hd, hvalue⟩
  · exact .inl rfl

theorem Valid.revises_setRelated (hn : g.node? id = some node) (labels : List NodeLabel) :
    Revises f table g (g.setRelated id labels) :=
  hv.revises_rewired (hv.sound.setRelated (contains_iff.2 ⟨node, hn⟩) labels) (fun _ => rfl)
    fun _ => .inl rfl

theorem Valid.unary_takes (hn : g.node? id = some node) (harr : node.operation.Arranges)
    (ho : g.source? ⟨id, 0⟩ = some o) :
    ∃ a b, g.outputDescriptor? o = some a ∧ g.outputDescriptor? ⟨id, 0⟩ = some b ∧
      node.operation.Takes [a] b := by
  obtain ⟨reads, written, ht⟩ := hv.typed id node hn
  obtain ⟨hin, hout, hone⟩ := harr.kind_eq
  have hreads := ht.reads_eq hin
  rw [hone] at hreads
  simp only [List.range_one, List.map_cons, List.map_nil, inputDescriptor?_eq, ho,
    Option.bind_some] at hreads
  obtain _ | ⟨a, _ | ⟨_, _⟩⟩ := reads <;> simp at hreads
  exact ⟨a, written, hreads, ht.written_eq hout, ht.takes⟩

end Updates

/-- A graph where the slot `s` reads `o` in place of `p`. -/
def reconnected (g : Graph) (p o : OutputSlot) (s : InputSlot) : Graph := (g.unlink p s).link o s

theorem frame?_reconnected (s : InputSlot) (k : NodeId) :
    (g.reconnected p o s).frame? k = g.frame? k := by
  simp [reconnected]

theorem source?_reconnected {s : InputSlot} (hs : g.source? s = some p) (t : InputSlot) :
    (g.reconnected p o s).source? t = if t = s then some o else g.source? t := by
  have hinput := hasInput_of_source? hs
  rw [reconnected, source?_link _ _ _ ((hasInput_congr (frame?_unlink g p s) s).2 hinput),
    source?_unlink g p s hinput]
  split <;> rfl

/-- A reshape of a reshape can read what the first one reads. -/
theorem Sound.canConnect_over (hg : g.Sound) {parent : NodeId}
    (hp : g.source? ⟨id, 0⟩ = some ⟨parent, 0⟩) (ho : g.source? ⟨parent, 0⟩ = some o) :
    Edit.CanConnect (g.unlink ⟨parent, 0⟩ ⟨id, 0⟩) o ⟨id, 0⟩ := by
  have hunlink := hg.unlink hp
  have hinput := hasInput_of_source? hp
  have hsource := source?_unlink g ⟨parent, 0⟩ ⟨id, 0⟩ hinput
  refine ⟨(hasOutput_congr (frame?_unlink g _ _) o).2 (hg.linked.hasOutput_of_source? ho),
    (hasInput_congr (frame?_unlink g _ _) _).2 hinput, by simp [hsource], ?_⟩
  rw [Bool.eq_false_iff]
  intro hr
  have hpath : Relation.ReflTransGen g.Edge id o.node :=
    Relation.ReflTransGen.mono (fun _ _ he => edge_of_unlink hp he) _ _
      (hunlink.reaches_iff.1 hr)
  have hback : Relation.TransGen g.Edge o.node id :=
    .tail (.single (.of_source? ho)) (.of_source? hp)
  exact hg.acyclic _ (hback.trans_left hpath)

theorem Sound.reconnected (hg : g.Sound) {parent : NodeId}
    (hp : g.source? ⟨id, 0⟩ = some ⟨parent, 0⟩) (ho : g.source? ⟨parent, 0⟩ = some o) :
    (g.reconnected ⟨parent, 0⟩ o ⟨id, 0⟩).Sound :=
  (hg.unlink hp).link (hg.canConnect_over hp ho)

/-- Letting a reshape of a reshape read what the first one reads. -/
theorem Valid.revises_reconnected (hv : g.Valid table) {parent : NodeId} {parentNode : Node}
    {target inner : Shape} (hn : g.node? id = some node) (hop : node.operation = .reshape target)
    (hp : g.source? ⟨id, 0⟩ = some ⟨parent, 0⟩) (hpn : g.node? parent = some parentNode)
    (hpop : parentNode.operation = .reshape inner) (ho : g.source? ⟨parent, 0⟩ = some o) :
    Revises f table g (g.reconnected ⟨parent, 0⟩ o ⟨id, 0⟩) := by
  obtain ⟨b, c, hb, hc, htake⟩ := hv.unary_takes hn (hop ▸ .inl rfl) hp
  obtain ⟨a, b', ha, hb', hptake⟩ := hv.unary_takes hpn (hpop ▸ .inl rfl) ho
  obtain rfl := Option.some.inj (hb.symm.trans hb')
  rw [hop, Operation.takes_reshape_iff] at htake
  rw [hpop, Operation.takes_reshape_iff] at hptake
  have hframe := frame?_reconnected (g := g) (p := ⟨parent, 0⟩) (o := o) ⟨id, 0⟩
  have houtput : ∀ q, (g.reconnected ⟨parent, 0⟩ o ⟨id, 0⟩).outputDescriptor? q =
      g.outputDescriptor? q := by
    simp [outputDescriptor?_eq_frame, hframe]
  have hsource := source?_reconnected (o := o) hp
  suffices hsub : Substitutes f table g (g.reconnected ⟨parent, 0⟩ o ⟨id, 0⟩) fun k => k from
    hsub.revises hv
  refine ⟨hv.sound.reconnected hp ho, fun k other hk => ?_, fun k other hk hgone => ?_⟩
  · by_cases hkid : k = id
    · subst hkid
      have hother : other.operation = .reshape c.shape := by
        obtain ⟨_, hsame, -, hkept⟩ := exists_node_of_frame (hframe k) hn
        obtain rfl := Option.some.inj (hk.symm.trans hsame)
        rw [hkept, hop, htake.1]
      refine .inr ⟨o, a, c, hother, by simp [hsource], by rw [houtput, ha], by rw [houtput, hc],
        hptake.2.1.trans htake.2.1, hptake.2.2.trans htake.2.2, fun _ inputs _ => ?_,
        fun old hold => ?_⟩
      · rw [hv.sound.value?_reshape hn hop hp, hv.sound.value?_reshape hpn hpop ho]
      · rw [← Option.some.inj (hn.symm.trans hold), Node.kind, hop]
        rfl
    · refine .inl ⟨hframe k, rfl, fun i => ?_⟩
      rw [hsource, if_neg (by simp [hkid])]
      cases g.source? ⟨k, i⟩ with
      | none => exact .none
      | some q => exact .some (.refl (hframe q.node) rfl)
  · exact absurd hgone (node?_ne_none (hframe k) hk)

theorem Sound.hasOutput (hg : g.Sound) (hn : g.node? id = some node) (hk : node.kind ≠ .output) :
    g.HasOutput ⟨id, 0⟩ := ⟨node, hn, (hg.lt_outputs_iff hn).2 ⟨hk, rfl⟩⟩

/-- A node has at most one output, so it is unread once that one is. -/
theorem Sound.hasConsumers_eq_false (hg : g.Sound) (hn : g.node? id = some node)
    (hr : g.readers ⟨id, 0⟩ = []) : node.hasConsumers = false := by
  rw [hasConsumers_eq_false_iff hn]
  intro i
  rw [List.eq_nil_iff_forall_not_mem]
  intro s hs
  obtain ⟨other, hother, hlt⟩ := hasOutput_of_mem_readers hs
  obtain rfl := Option.some.inj (hn.symm.trans hother)
  obtain ⟨-, rfl⟩ := (hg.lt_outputs_iff hn).1 hlt
  rw [hr] at hs
  cases hs

/-- A tensor that comes from an earlier node can be read by all readers of a later one. -/
theorem Sound.canMove (hg : g.Sound) (hp : g.HasOutput p) (ho : g.HasOutput o)
    (hpath : Relation.TransGen g.Edge o.node p.node) : Edit.CanMove g p o := by
  refine ⟨hp, ho, ?_, fun s hs => ?_⟩
  · rintro rfl
    exact hg.acyclic _ hpath
  · rw [Bool.eq_false_iff]
    intro hr
    have hedge : g.Edge p.node s.node := .of_source? ((hg.linked.source_iff s p).2 hs)
    exact hg.acyclic _ ((hpath.tail hedge).trans_left (hg.reaches_iff.1 hr))

theorem node?_setRelated (id k : NodeId) (labels : List NodeLabel) :
    (g.setRelated id labels).node? k = g.node? k := rfl

theorem frame?_setRelated (id k : NodeId) (labels : List NodeLabel) :
    (g.setRelated id labels).frame? k = g.frame? k := rfl

theorem source?_setRelated (id : NodeId) (t : InputSlot) (labels : List NodeLabel) :
    (g.setRelated id labels).source? t = g.source? t := rfl

theorem readers_setRelated (id : NodeId) (p : OutputSlot) (labels : List NodeLabel) :
    (g.setRelated id labels).readers p = g.readers p := rfl

section Replacing

/-- A graph with a fresh reshape on the edge from `o` into a node. -/
def withReshape (g : Graph) (id : NodeId) (o : OutputSlot) (name : String) (d : Descriptor) :
    Graph :=
  (g.push (.reshape d.shape) name).splice g.nodes.size o ⟨id, 0⟩ d

/-- The same graph, once the readers of the node read the reshape. -/
def rerouted (g : Graph) (id : NodeId) (o : OutputSlot) (name : String) (d : Descriptor) : Graph :=
  (g.withReshape id o name d).moveConsumers ⟨id, 0⟩ ⟨g.nodes.size, 0⟩
    ((g.withReshape id o name d).readers ⟨id, 0⟩)

/-- A graph with a fresh reshape in the place of a node, which had `count` inputs. -/
def replaced (g : Graph) (id : NodeId) (o : OutputSlot) (name : String) (d : Descriptor)
    (labels : List NodeLabel) (count : Nat) : Graph :=
  ((g.rerouted id o name d).setRelated g.nodes.size labels).without id count

variable {name : String} {d : Descriptor} {labels : List NodeLabel} {count : Nat}

theorem frame?_withReshape (k : NodeId) : (g.withReshape id o name d).frame? k =
    if k = g.nodes.size then
      some { (Node.fresh g.nodes.size name (.reshape d.shape) g.nextSeq).frame with
        descriptors := [some d] }
    else g.frame? k := frame?_splice_push name d k

theorem frame?_rerouted (k : NodeId) :
    (g.rerouted id o name d).frame? k = (g.withReshape id o name d).frame? k :=
  frame?_moveConsumers _ _ _ _ k

theorem frame?_replaced (k : NodeId) : (g.replaced id o name d labels count).frame? k =
    if k = id then none else (g.withReshape id o name d).frame? k := by
  rw [replaced, frame?_without, frame?_setRelated, frame?_rerouted]

theorem source?_withReshape (ho : g.source? ⟨id, 0⟩ = some o) (t : InputSlot) :
    (g.withReshape id o name d).source? t =
      if t = ⟨id, 0⟩ then some ⟨g.nodes.size, 0⟩ else if t = ⟨g.nodes.size, 0⟩ then some o
      else g.source? t :=
  source?_splice_push name d rfl (hasInput_of_source? ho) t

section Rerouted

variable (hg : g.Sound) (ho : g.source? ⟨id, 0⟩ = some o)

include hg ho

theorem Sound.withReshape : (g.withReshape id o name d).Sound := hg.splice name d ho rfl rfl

theorem Sound.source?_rerouted (t : InputSlot) : (g.rerouted id o name d).source? t =
    if t = ⟨id, 0⟩ then some ⟨g.nodes.size, 0⟩
    else if t = ⟨g.nodes.size, 0⟩ then some o
    else if g.source? t = some ⟨id, 0⟩ then some ⟨g.nodes.size, 0⟩
    else g.source? t := by
  have hsound : (g.withReshape id o name d).Sound := hg.withReshape ho
  have hself : o ≠ ⟨id, 0⟩ := by
    rintro rfl
    exact hg.acyclic.not_edge_self id (.of_source? ho)
  rw [rerouted, source?_moveConsumers _ _ _ _ fun s => hsound.linked.hasInput_of_mem_readers]
  simp only [← hsound.linked.source_iff, source?_withReshape ho]
  by_cases hid : t = ⟨id, 0⟩
  · simp [hid]
  · by_cases hz : t = ⟨g.nodes.size, 0⟩
    · subst hz
      simp [hid, hself]
    · simp [hid, hz]

theorem Sound.source?_replaced (t : InputSlot) : (g.replaced id o name d labels count).source? t =
    if t.node = id then none
    else if t = ⟨g.nodes.size, 0⟩ then some o
    else if g.source? t = some ⟨id, 0⟩ then some ⟨g.nodes.size, 0⟩
    else g.source? t := by
  rw [Graph.replaced, source?_without, source?_setRelated, hg.source?_rerouted ho]
  by_cases hid : t.node = id
  · simp [hid]
  · rw [if_neg hid, if_neg hid, if_neg fun h => hid (congrArg InputSlot.node h)]

end Rerouted

theorem ne_size_of_node (hn : g.node? id = some node) : id ≠ g.nodes.size :=
  Nat.ne_of_lt (lt_size_of_contains (contains_iff.2 ⟨node, hn⟩))

theorem node_of_withReshape (hn : g.node? id = some node) (o : OutputSlot) (name : String)
    (d : Descriptor) :
    ∃ other, (g.withReshape id o name d).node? id = some other ∧ other.frame = node.frame :=
  exists_node_with_frame (by rw [frame?_withReshape, if_neg (ne_size_of_node hn)]) hn

theorem relatedNodes_rerouted (k : NodeId) :
    (g.rerouted id o name d).relatedNodes k = g.relatedNodes k := by
  rw [relatedNodes, rerouted, (SameNodes.moveConsumers _ _ _ _).related]
  rfl

theorem exists_fresh (g : Graph) (id : NodeId) (o : OutputSlot) (name : String) (d : Descriptor) :
    ∃ fresh, (g.rerouted id o name d).node? g.nodes.size = some fresh := by
  rw [← contains_iff, contains_eq_frame?, frame?_rerouted, frame?_withReshape, if_pos rfl]
  rfl

section Unread

variable (hg : g.Sound) (hn : g.node? id = some node) (hk : node.kind ≠ .output)
  (ho : g.source? ⟨id, 0⟩ = some o)

include hg hn hk ho

theorem Sound.canReroute :
    Edit.CanMove (g.withReshape id o name d) ⟨id, 0⟩ ⟨g.nodes.size, 0⟩ := by
  have hsound : (g.withReshape id o name d).Sound := hg.withReshape ho
  have hsource : (g.withReshape id o name d).source? ⟨id, 0⟩ = some ⟨g.nodes.size, 0⟩ := by
    rw [source?_withReshape ho, if_pos rfl]
  have hedge := Edge.of_source? hsource
  obtain ⟨other, hother, hframe⟩ := node_of_withReshape hn o name d
  have hop : other.operation = node.operation := congrArg NodeFrame.operation hframe
  exact hsound.canMove (hsound.hasOutput hother (by rwa [Node.kind, hop]))
    (hsound.linked.hasOutput_of_source? hsource) (.single hedge)

theorem Sound.rerouted : (g.rerouted id o name d).Sound :=
  (hg.withReshape ho).moveConsumers (hg.canReroute hn hk ho)

/-- The node is left with nothing that reads it. -/
theorem Sound.exists_unread (name : String) (d : Descriptor) :
    ∃ other, (g.rerouted id o name d).node? id = some other ∧ other.frame = node.frame ∧
      (g.rerouted id o name d).readers ⟨id, 0⟩ = [] := by
  have hmove : Edit.CanMove (g.withReshape id o name d) ⟨id, 0⟩ ⟨g.nodes.size, 0⟩ :=
    hg.canReroute hn hk ho
  obtain ⟨spliced, hspliced, hframe⟩ := node_of_withReshape hn o name d
  obtain ⟨other, hother, hframe'⟩ := exists_node_with_frame (frame?_rerouted id) hspliced
  refine ⟨other, hother, hframe'.trans hframe, ?_⟩
  rw [Graph.rerouted, readers_moveConsumers _ _ _ _ hmove.source hmove.target hmove.ne,
    if_neg hmove.ne, if_pos rfl]

end Unread

theorem Valid.value?_of_layoutPreserving (hv : g.Valid table) (hs : g.Supported)
    {q : Permutation} (hn : g.node? id = some node) (hop : node.operation.reading? = some q)
    (ho : g.source? ⟨id, 0⟩ = some o) (ha : g.outputDescriptor? o = some a)
    (hlayout : isLayoutPreserving a.shape.dims q.axes = true) (hf : table.Fed inputs) :
    g.value? f inputs o.node = g.value? f inputs id := by
  obtain ⟨m, hm, hsize⟩ := hv.source_value (f := f) hs hf ho ha
  rw [hv.sound.value?_reading hn hop ho ha, hm, Option.map_some,
    Memory.reorder_of_layoutPreserving hlayout hsize]

/-- The reshape has the value of the node it replaces, every other node its own. -/
def replacedOrigin (g : Graph) (id k : NodeId) : NodeId := if k = g.nodes.size then id else k

theorem frame?_replaced_of_ne {k : NodeId} (hid : k ≠ id) (hz : k ≠ g.nodes.size) :
    (g.replaced id o name d labels count).frame? k = g.frame? k := by
  rw [frame?_replaced, if_neg hid, frame?_withReshape, if_neg hz]

theorem outputDescriptor?_replaced (hn : g.node? id = some node) :
    (g.replaced id o name d labels count).outputDescriptor? ⟨g.nodes.size, 0⟩ = some d := by
  rw [outputDescriptor?_eq_frame, frame?_replaced, if_neg (ne_size_of_node hn).symm,
    frame?_withReshape, if_pos rfl]
  rfl

theorem Valid.carries_replaced (hv : g.Valid table) {s : InputSlot} (hp : g.source? s = some p)
    (hne : p.node ≠ id) :
    Carries f table g (g.replaced id o name d labels count) (g.replacedOrigin id) p p := by
  obtain ⟨producer, hp⟩ := hv.contains_of_source? hp
  have hz := ne_size_of_node hp
  exact .refl (frame?_replaced_of_ne hne hz) (if_neg hz)

section Replaced

variable (hv : g.Valid table) (hn : g.node? id = some node) (ho : g.source? ⟨id, 0⟩ = some o)
  (hd : g.outputDescriptor? ⟨id, 0⟩ = some d)

include hv hn ho hd

theorem Valid.kept_replaced {k : NodeId} (hid : k ≠ id) (hz : k ≠ g.nodes.size) :
    Kept f table g (g.replaced id o name d labels count) (g.replacedOrigin id) k := by
  refine ⟨frame?_replaced_of_ne hid hz, if_neg hz, fun i => ?_⟩
  rw [hv.sound.source?_replaced ho, if_neg hid, if_neg (by simp [hz])]
  cases hp : g.source? ⟨k, i⟩ with
  | none => simp
  | some p =>
    by_cases hpid : p = ⟨id, 0⟩
    · subst hpid
      rw [if_pos rfl]
      -- a reader of the node now reads the reshape, which is described like it
      refine .some ⟨(outputDescriptor?_replaced hn).trans hd.symm, fun _ inputs _ => ?_⟩
      rw [replacedOrigin, if_pos rfl]
    · rw [if_neg (by simpa using hpid)]
      refine .some (hv.carries_replaced hp fun hne => hpid ?_)
      obtain ⟨_, _, _, -, -, hzero, -⟩ := hv.source hp
      rw [hzero, hne]

theorem Valid.reshapes_replaced {q : Permutation}
    (hop : node.operation.reading? = some q) (ha : g.outputDescriptor? o = some a)
    (hlayout : isLayoutPreserving a.shape.dims q.axes = true) {fresh : Node}
    (hfresh : (g.replaced id o name d labels count).node? g.nodes.size = some fresh) :
    Reshapes f table g (g.replaced id o name d labels count) (g.replacedOrigin id) g.nodes.size
      fresh o a d := by
  have hself : o.node ≠ id := by
    rintro rfl
    exact hv.sound.acyclic.not_edge_self _ (.of_source? ho)
  have hcarries : Carries f table g (g.replaced id o name d labels count) (g.replacedOrigin id)
      o o :=
    hv.carries_replaced ho hself
  obtain ⟨a', d', ha', hd', htake⟩ :=
    hv.unary_takes hn (Operation.arranges_of_reading hop) ho
  obtain rfl := Option.some.inj (ha.symm.trans ha')
  obtain rfl := Option.some.inj (hd.symm.trans hd')
  obtain ⟨hrank, hdims, htype⟩ := (Operation.takes_iff_of_reading hop).1 htake
  have hne := (ne_size_of_node hn).symm
  refine ⟨?_, ?_, hcarries.descriptor.trans ha, outputDescriptor?_replaced hn, ?_, htype,
    fun hs inputs hf => ?_, fun old hold => absurd rfl (ne_size_of_node hold)⟩
  · have hframe := frame?_eq_some_iff.2 ⟨fresh, hfresh, rfl⟩
    rw [frame?_replaced, if_neg hne, frame?_withReshape, if_pos rfl] at hframe
    exact (congrArg NodeFrame.operation (Option.some.inj hframe)).symm
  · rw [hv.sound.source?_replaced ho, if_neg hne, if_pos rfl]
  · rw [Descriptor.numElements, Descriptor.numElements, Shape.numElements, Shape.numElements,
      ← hdims, volume_gatherDims q hrank]
  · rw [hcarries.value hs inputs hf, replacedOrigin, if_pos rfl]
    exact hv.value?_of_layoutPreserving hs hn hop ho ha hlayout hf

/-- Putting a reshape in the place of a reordering that moves no elements. -/
theorem Valid.revises_replaced {q : Permutation}
    (hop : node.operation.reading? = some q) (ha : g.outputDescriptor? o = some a)
    (hlayout : isLayoutPreserving a.shape.dims q.axes = true)
    (hh : (g.replaced id o name d labels count).Sound) :
    Revises f table g (g.replaced id o name d labels count) := by
  suffices hsub : Substitutes f table g (g.replaced id o name d labels count)
      (g.replacedOrigin id) from
    hsub.revises hv
  refine ⟨hh, fun k other hk => ?_, fun k other hk hgone => ?_⟩
  · have hid : k ≠ id := by
      rintro rfl
      have := frame?_eq_some_iff.2 ⟨other, hk, rfl⟩
      simp [frame?_replaced] at this
    by_cases hz : k = g.nodes.size
    · subst hz
      exact .inr ⟨o, a, d, hv.reshapes_replaced hn ho hd hop ha hlayout hk⟩
    · exact .inl (hv.kept_replaced hn ho hd hid hz)
  · have hkid : k = id := by
      by_contra hne
      exact node?_ne_none (frame?_replaced_of_ne hne (ne_size_of_node hk)) hk hgone
    subst hkid
    obtain rfl := Option.some.inj (hn.symm.trans hk)
    have hkind := (Operation.arranges_of_reading hop).kind_eq
    exact ⟨hkind.1, hkind.2.1⟩

end Replaced

end Replacing

end Graph

end LayerGraph
