import LayerGraph.Proofs.Rewriting

/-!
# What the rules do

On a valid graph every standard rule that applies also succeeds, and it does one of three
things: it bypasses a pair of nodes that comes to nothing, it lets a reshape read past
another, or it puts a reshape in the place of a reordering. The graph it leaves revises the
one it found.
-/

set_option autoImplicit false

namespace LayerGraph

open LayerGraph.Graph

variable {f : FloatAddition} {table : BindingTable} {g : Graph} {id parent child : NodeId}
  {node parentNode childNode : Node} {o : OutputSlot}

/-- Two operations in a row of which the second can take back the first. -/
inductive Operation.Undone : Operation → Operation → Prop where
  | reshapes (inner target : Shape) : Undone (.reshape inner) (.reshape target)
  | readings {a b : Operation} {first second : Permutation} (ha : a.reading? = some first)
      (hb : b.reading? = some second) (hc : Cancel first second) : Undone a b

theorem Node.label_eq_of_frame {m n : Node} (h : m.frame = n.frame) : m.label = n.label := by
  rw [Node.label, Node.label, show m.id = n.id from congrArg NodeFrame.id h,
    show m.name = n.name from congrArg NodeFrame.name h]

theorem Node.operation_eq_of_frame {m n : Node} (h : m.frame = n.frame) :
    m.operation = n.operation := congrArg NodeFrame.operation h

namespace Graph

theorem parent?_eq_some_iff : g.parent? id = some parentNode ↔
    ∃ p, g.source? ⟨id, 0⟩ = some p ∧ g.node? p.node = some parentNode := by
  simp only [parent?, source?, Option.bind_eq_some_iff]
  grind

theorem Valid.exists_source (hv : g.Valid table) (hn : g.node? id = some node) {i : Nat}
    (hi : i < node.kind.numInputs) : ∃ o, g.source? ⟨id, i⟩ = some o := by
  obtain ⟨reads, written, ht⟩ := hv.typed id node hn
  have hin := (checkComplete_eq_ok_iff.1 (ht.checkComplete hv.sound hn)).1
  have hmem : g.source? ⟨id, i⟩ ∈ node.inputs := by
    rw [← map_source?_range hv.sound hn]
    exact List.mem_map_of_mem (List.mem_range.2 hi)
  exact Option.isSome_iff_exists.1 (hin _ hmem)

/-- Two nodes in a row that arrange elements, and the output that feeds them. -/
structure Chain (g : Graph) (parent child : NodeId) (parentNode childNode : Node)
    (o : OutputSlot) : Prop where
  parent_node : g.node? parent = some parentNode
  child_node : g.node? child = some childNode
  parent_arranges : parentNode.operation.Arranges
  child_arranges : childNode.operation.Arranges
  child_source : g.source? ⟨child, 0⟩ = some ⟨parent, 0⟩
  parent_source : g.source? ⟨parent, 0⟩ = some o

theorem Valid.exists_chain (hv : g.Valid table) (hn : g.node? child = some childNode)
    (hp : g.parent? child = some parentNode) (hpa : parentNode.operation.Arranges)
    (hca : childNode.operation.Arranges) :
    ∃ parent o, g.Chain parent child parentNode childNode o := by
  obtain ⟨p, hsource, hpn⟩ := parent?_eq_some_iff.1 hp
  obtain ⟨o, ho⟩ := hv.exists_source hpn (i := 0) (by
    rw [Node.kind, hpa.kind_eq.2.2]
    exact Nat.zero_lt_one)
  obtain ⟨_, _, _, -, -, hzero, -⟩ := hv.source hsource
  exact ⟨p.node, o, hpn, hn, hpa, hca, hzero ▸ hsource, ho⟩

def released (g : Graph) (id : NodeId) : Graph :=
  if g.readers ⟨id, 0⟩ = [] then g.without id 1 else g

/-- A graph without `child`, whose readers read `o`. -/
def skipped (g : Graph) (child : NodeId) (o : OutputSlot) : Graph :=
  (g.moveConsumers ⟨child, 0⟩ o (g.readers ⟨child, 0⟩)).without child 1

/-- A graph without `child`, and without `parent` unless something else reads it. -/
def bypassed (g : Graph) (parent child : NodeId) (o : OutputSlot) : Graph :=
  (g.skipped child o).released parent

/-- A graph that notes that `id` stands for `old` and for all that one stood for. -/
def superseding (g : Graph) (id old : NodeId) (name : String) : Graph :=
  g.setRelated id (g.relatedNodes id ++ ⟨old, name⟩ :: g.relatedNodes old)

/-- A graph where `child` reads what `parent`, of the given name, reads, without `parent`
unless something else reads it. -/
def merged (g : Graph) (parent child : NodeId) (name : String) (o : OutputSlot) : Graph :=
  let h := g.reconnected ⟨parent, 0⟩ o ⟨child, 0⟩
  if h.readers ⟨parent, 0⟩ = [] then (h.superseding child parent name).without parent 1 else h

/-- What a rule that applies to a node of a graph records, and the graph it leaves. -/
inductive Rewrite (g : Graph) (rule : String) (id : NodeId) : Applied → Graph → Prop where
  | bypass {parent : NodeId} {parentNode node : Node} {o : OutputSlot}
      (chain : g.Chain parent id parentNode node o)
      (undone : parentNode.operation.Undone node.operation)
      (restores : g.outputDescriptor? o = g.outputDescriptor? ⟨id, 0⟩) :
      Rewrite g rule id
        ⟨rule, node.label :: if (g.skipped id o).readers ⟨parent, 0⟩ = [] then [parentNode.label]
          else [], none⟩
        (g.bypassed parent id o)
  | merge {parent : NodeId} {parentNode node : Node} {o : OutputSlot} {inner target : Shape}
      (chain : g.Chain parent id parentNode node o)
      (parent_operation : parentNode.operation = .reshape inner)
      (operation : node.operation = .reshape target)
      (differs : g.outputDescriptor? o ≠ g.outputDescriptor? ⟨id, 0⟩) :
      Rewrite g rule id
        ⟨rule, if (g.reconnected ⟨parent, 0⟩ o ⟨id, 0⟩).readers ⟨parent, 0⟩ = [] then
          [parentNode.label] else [], some id⟩
        (g.merged parent id parentNode.name o)
  | replace {node : Node} {o : OutputSlot} {a d : Descriptor} {q : Permutation}
      (at_node : g.node? id = some node) (reads : node.operation.reading? = some q)
      (source : g.source? ⟨id, 0⟩ = some o) (before : g.outputDescriptor? o = some a)
      (after : g.outputDescriptor? ⟨id, 0⟩ = some d)
      (layout : isLayoutPreserving a.shape.dims q.axes = true) :
      Rewrite g rule id ⟨rule, [node.label], some g.nodes.size⟩
        (g.replaced id o ("merged-" ++ node.name ++ "-into-reshape") d
          (g.relatedNodes g.nodes.size ++ ⟨id, node.name⟩ :: g.relatedNodes id) 1)

theorem Sound.remove_unread (hg : g.Sound) (hn : g.node? id = some node)
    (ha : node.operation.Arranges) (hr : g.readers ⟨id, 0⟩ = []) :
    ∃ removed, Edit.remove id g = .ok removed (g.without id 1) := by
  obtain ⟨removed, hok⟩ := Edit.remove_ok hn (hg.hasConsumers_eq_false hn hr)
  rw [hg.length_inputs hn, Node.kind, ha.kind_eq.2.2] at hok
  exact ⟨removed, hok⟩

theorem Sound.without_unread (hg : g.Sound) (hn : g.node? id = some node)
    (ha : node.operation.Arranges) (hr : g.readers ⟨id, 0⟩ = []) : (g.without id 1).Sound := by
  have hsound := hg.without hn (hg.hasConsumers_eq_false hn hr)
  rwa [hg.length_inputs hn, Node.kind, ha.kind_eq.2.2] at hsound

theorem Valid.revises_unread (hv : g.Valid table) (hn : g.node? id = some node)
    (ha : node.operation.Arranges) (hr : g.readers ⟨id, 0⟩ = []) :
    Revises f table g (g.without id 1) := by
  have hrevises := hv.revises_without (f := f) hn (hv.sound.hasConsumers_eq_false hn hr) ha
  rwa [hv.sound.length_inputs hn, Node.kind, ha.kind_eq.2.2] at hrevises

theorem Sound.superseding (hg : g.Sound) (hn : g.node? id = some node) (old : NodeId)
    (name : String) : (g.superseding id old name).Sound :=
  hg.setRelated (contains_iff.2 ⟨node, hn⟩) _

theorem node?_superseding (id old k : NodeId) (name : String) :
    (g.superseding id old name).node? k = g.node? k := rfl

theorem readers_superseding (id old : NodeId) (name : String) (p : OutputSlot) :
    (g.superseding id old name).readers p = g.readers p := rfl

theorem Sound.replaced (hg : g.Sound) (hn : g.node? id = some node) (ha : node.operation.Arranges)
    (ho : g.source? ⟨id, 0⟩ = some o) (name : String) (d : Descriptor) (labels : List NodeLabel) :
    (g.replaced id o name d labels 1).Sound := by
  obtain ⟨fresh, hfresh⟩ := exists_fresh g id o name d
  obtain ⟨unread, hunread, hframe, hreaders⟩ := hg.exists_unread hn ha.kind_eq.2.1 ho name d
  exact ((hg.rerouted hn ha.kind_eq.2.1 ho).setRelated (contains_iff.2 ⟨fresh, hfresh⟩)
    labels).without_unread ((node?_setRelated _ _ _).trans hunread)
      (Node.operation_eq_of_frame hframe ▸ ha) ((readers_setRelated _ _ _).trans hreaders)

theorem hasConsumers_eq_true (hn : g.node? id = some node) (hr : g.readers ⟨id, 0⟩ ≠ []) :
    node.hasConsumers = true := by
  by_contra hc
  exact hr ((hasConsumers_eq_false_iff hn).1 (Bool.eq_false_iff.2 hc) 0)

theorem frame?_skipped (k : NodeId) :
    (g.skipped child o).frame? k = if k = child then none else g.frame? k := by
  rw [skipped, frame?_without, frame?_moveConsumers]

theorem Sound.source?_skipped (hg : g.Sound) (t : InputSlot) : (g.skipped child o).source? t =
    if t.node = child then none else if g.source? t = some ⟨child, 0⟩ then some o
    else g.source? t := by
  rw [skipped, source?_without,
    source?_moveConsumers g _ o _ fun s => hg.linked.hasInput_of_mem_readers]
  simp only [hg.linked.source_iff]

theorem Chain.nodes_reconnected (hc : g.Chain parent child parentNode childNode o) : ∃ node next,
    (g.reconnected ⟨parent, 0⟩ o ⟨child, 0⟩).node? parent = some node ∧
      node.frame = parentNode.frame ∧
      (g.reconnected ⟨parent, 0⟩ o ⟨child, 0⟩).node? child = some next := by
  obtain ⟨node, hn, hframe⟩ := exists_node_with_frame
    (h := g.reconnected ⟨parent, 0⟩ o ⟨child, 0⟩) (frame?_reconnected _ parent) hc.parent_node
  obtain ⟨next, hnext, -⟩ := exists_node_with_frame
    (h := g.reconnected ⟨parent, 0⟩ o ⟨child, 0⟩) (frame?_reconnected _ child) hc.child_node
  exact ⟨node, next, hn, hframe, hnext⟩

namespace Chain

variable (hc : g.Chain parent child parentNode childNode o) (hg : g.Sound)

include hc hg

theorem ne : parent ≠ child := by
  rintro rfl
  exact hg.acyclic.not_edge_self _ (.of_source? hc.child_source)

theorem canMove : Edit.CanMove g ⟨child, 0⟩ o :=
  hg.canMove (hg.hasOutput hc.child_node hc.child_arranges.kind_eq.2.1)
    (hg.linked.hasOutput_of_source? hc.parent_source)
    (.tail (.single (.of_source? hc.parent_source)) (.of_source? hc.child_source))

/-- Once its readers have moved, the second node is still there and nothing reads it. -/
theorem exists_unread : ∃ node,
    (g.moveConsumers ⟨child, 0⟩ o (g.readers ⟨child, 0⟩)).node? child = some node ∧
      node.label = childNode.label ∧ node.operation = childNode.operation ∧
      (g.moveConsumers ⟨child, 0⟩ o (g.readers ⟨child, 0⟩)).readers ⟨child, 0⟩ = [] := by
  obtain ⟨node, hn, hframe⟩ :=
    exists_node_with_frame (frame?_moveConsumers g ⟨child, 0⟩ o _ child) hc.child_node
  have hmove := hc.canMove hg
  refine ⟨node, hn, Node.label_eq_of_frame hframe, Node.operation_eq_of_frame hframe, ?_⟩
  rw [readers_moveConsumers g _ _ _ hmove.source hmove.target hmove.ne, if_neg hmove.ne,
    if_pos rfl]

/-- The first node stays as it is. -/
theorem parent_skipped : ∃ node, (g.skipped child o).node? parent = some node ∧
    node.label = parentNode.label ∧ node.operation = parentNode.operation := by
  obtain ⟨node, hn, hframe⟩ := exists_node_with_frame (h := g.skipped child o)
    (by rw [frame?_skipped, if_neg (hc.ne hg)]) hc.parent_node
  exact ⟨node, hn, Node.label_eq_of_frame hframe, Node.operation_eq_of_frame hframe⟩

theorem sound_skipped : (g.skipped child o).Sound := by
  obtain ⟨node, hn, -, hop, hunread⟩ := hc.exists_unread hg
  exact (hg.moveConsumers (hc.canMove hg)).without_unread hn (hop ▸ hc.child_arranges) hunread

end Chain

end Graph

namespace Edit

theorem parent_ok {p : OutputSlot} (hp : g.source? ⟨id, 0⟩ = some p) :
    Edit.parent id g = .ok p.node g := by
  rw [Edit.parent, bind_ok (checkProducer_ok hp)]
  rfl

theorem superseding_ok {h : Graph} (ha : h.node? child = some childNode)
    (hb : h.node? parent = some parentNode) :
    addRelated child parent h = .ok () (h.superseding child parent parentNode.name) :=
  addRelated_ok ha hb

theorem bypassPair_ok (hc : g.Chain parent child parentNode childNode o) (hg : g.Sound) :
    bypassPair parent child g = .ok
      (childNode.label :: if (g.skipped child o).readers ⟨parent, 0⟩ = [] then [parentNode.label]
        else [])
      (g.bypassed parent child o) := by
  obtain ⟨moved, hmoved, hlabel, hop, hunread⟩ := hc.exists_unread hg
  obtain ⟨removed, hremove⟩ := (hg.moveConsumers (hc.canMove hg)).remove_unread hmoved
    (hop ▸ hc.child_arranges) hunread
  obtain ⟨left, hleft, hleftLabel, hleftOp⟩ := hc.parent_skipped hg
  rw [skipped] at hleft
  rw [bypassPair, bind_ok (checkProducer_ok hc.parent_source), bind_ok (moveAll_ok (hc.canMove hg)),
    bind_ok (checkNode_ok hmoved), bind_ok hremove, bind_ok (checkNode_ok hleft), bypassed,
    released]
  rw [← skipped] at hleft ⊢
  -- the parent goes too, unless something else reads it
  by_cases hr : (g.skipped child o).readers ⟨parent, 0⟩ = []
  · obtain ⟨removed', hremove'⟩ :=
      (hc.sound_skipped hg).remove_unread hleft (hleftOp ▸ hc.parent_arranges) hr
    rw [if_pos hr, if_pos hr, (hc.sound_skipped hg).hasConsumers_eq_false hleft hr]
    simp only [Bool.false_eq_true, if_false, hlabel, hleftLabel]
    exact bind_ok hremove'
  · rw [if_neg hr, if_neg hr, hasConsumers_eq_true hleft hr]
    simp only [if_true, hlabel]
    rfl

end Edit

namespace Rule

/-- A rule that does what a rewrite says wherever it applies to a valid graph. -/
def Rewrites (rule : Rule) : Prop :=
  ∀ (table : BindingTable) (g : Graph) (id : NodeId), g.Valid table → rule.applies g id = true →
    ∃ applied h, rule.apply id g = .ok applied h ∧ g.Rewrite rule.name id applied h

theorem applies_iff {rule : Rule} : rule.applies g id = true ↔
    ∃ node, g.node? id = some node ∧ rule.admits node.operation = true ∧ rule.fits g id = true := by
  cases hn : g.node? id <;> simp [applies, hn]

section Reshapes

variable {target inner : Shape} (hv : g.Valid table)
  (hc : g.Chain parent child parentNode childNode o)

include hv hc

theorem restores_iff : restores g parent child = true ↔
    g.outputDescriptor? o = g.outputDescriptor? ⟨child, 0⟩ := by
  obtain ⟨a, -, ha, -, -⟩ := hv.unary_takes hc.parent_node hc.parent_arranges hc.parent_source
  rw [restores, Bool.and_eq_true, beq_iff_eq, inputDescriptor?_eq, hc.parent_source,
    Option.bind_some, ha]
  exact ⟨And.right, fun h => ⟨rfl, h⟩⟩

variable (hchild : childNode.operation = .reshape target)
  (hparent : parentNode.operation = .reshape inner)

include hchild hparent

theorem consecutiveReshapes_restoring
    (hd : g.outputDescriptor? o = g.outputDescriptor? ⟨child, 0⟩) :
    ∃ applied h, consecutiveReshapes.apply child g = .ok applied h ∧
      g.Rewrite consecutiveReshapes.name child applied h := by
  refine ⟨_, _, ?_, .bypass hc (hparent ▸ hchild ▸ .reshapes inner target) hd⟩
  simp only [consecutiveReshapes]
  rw [Edit.bind_ok (Edit.parent_ok hc.child_source), Edit.get_bind,
    if_pos ((restores_iff hv hc).2 hd), Edit.bind_ok (Edit.bypassPair_ok hc hv.sound)]
  rfl

theorem consecutiveReshapes_merging
    (hd : g.outputDescriptor? o ≠ g.outputDescriptor? ⟨child, 0⟩) :
    ∃ applied h, consecutiveReshapes.apply child g = .ok applied h ∧
      g.Rewrite consecutiveReshapes.name child applied h := by
  have hg := hv.sound
  have hconnect : Edit.connect o ⟨child, 0⟩ (g.unlink ⟨parent, 0⟩ ⟨child, 0⟩) =
      .ok () (g.reconnected ⟨parent, 0⟩ o ⟨child, 0⟩) :=
    Edit.connect_ok (hg.canConnect_over hc.child_source hc.parent_source)
  obtain ⟨leftParent, leftChild, hlp, hframe, hlc⟩ := hc.nodes_reconnected
  refine ⟨_, _, ?_, .merge hc hparent hchild hd⟩
  simp only [consecutiveReshapes]
  rw [Edit.bind_ok (Edit.parent_ok hc.child_source), Edit.get_bind,
    if_neg (mt (restores_iff hv hc).1 hd),
    Edit.bind_ok (Edit.checkProducer_ok hc.parent_source),
    Edit.bind_ok (Edit.disconnect_ok hc.child_source), Edit.bind_ok hconnect,
    Edit.bind_ok (Edit.checkNode_ok hlp), merged]
  by_cases hread : (g.reconnected ⟨parent, 0⟩ o ⟨child, 0⟩).readers ⟨parent, 0⟩ = []
  · have hsound := hg.reconnected hc.child_source hc.parent_source
    obtain ⟨removed, hremove⟩ := (hsound.superseding hlc parent leftParent.name).remove_unread
      ((node?_superseding _ _ _ _).trans hlp)
      (Node.operation_eq_of_frame hframe ▸ hc.parent_arranges)
      ((readers_superseding _ _ _ _).trans hread)
    rw [if_pos hread, if_pos hread, hsound.hasConsumers_eq_false hlp hread]
    simp only [Bool.false_eq_true, if_false]
    rw [Edit.bind_ok (Edit.superseding_ok hlc hlp), Edit.bind_ok hremove,
      Node.label_eq_of_frame hframe,
      show leftParent.name = parentNode.name from congrArg NodeFrame.name hframe]
    rfl
  · rw [if_neg hread, if_neg hread, hasConsumers_eq_true hlp hread]
    rfl

end Reshapes

theorem consecutiveReshapes_rewrites : consecutiveReshapes.Rewrites := by
  intro table g id hv happlies
  obtain ⟨node, hn, hadmits, hfits⟩ := applies_iff.1 happlies
  obtain ⟨parentNode, hp, hpop⟩ := (Option.any_eq_true _ _).1 hfits
  obtain ⟨hca, target, hchild⟩ := Operation.arranges_of_isReshape hadmits
  obtain ⟨hpa, inner, hparent⟩ := Operation.arranges_of_isReshape hpop
  obtain ⟨parent, o, hc⟩ := hv.exists_chain hn hp hpa hca
  by_cases hd : g.outputDescriptor? o = g.outputDescriptor? ⟨id, 0⟩
  · exact consecutiveReshapes_restoring hv hc hchild hparent hd
  · exact consecutiveReshapes_merging hv hc hchild hparent hd

theorem undoesParent_iff {cancel : Operation → Operation → Bool} :
    undoesParent cancel g id = true ↔ ∃ childNode parentNode d, g.node? id = some childNode ∧
      g.parent? id = some parentNode ∧
      cancel parentNode.operation childNode.operation = true ∧
      g.inputDescriptor? ⟨parentNode.id, 0⟩ = some d ∧ g.outputDescriptor? ⟨id, 0⟩ = some d := by
  rw [undoesParent]
  constructor
  · intro h
    split at h
    · rename_i childNode parentNode hn hp
      obtain ⟨hop, hsame⟩ := Bool.and_eq_true_iff.1 h
      split at hsame
      · rename_i before after hbefore hafter
        rw [beq_iff_eq] at hsame
        exact ⟨childNode, parentNode, before, hn, hp, hop, hbefore,
          by rw [outputDescriptor?_of_node hn, hafter, hsame]⟩
      · cases hsame
    · cases h
  · rintro ⟨childNode, parentNode, d, hn, hp, hop, hbefore, hafter⟩
    rw [outputDescriptor?_of_node hn] at hafter
    simp [hn, hp, hop, hbefore, hafter]

/-- A rule that bypasses a pair of reorderings, the second of which takes back the first. -/
theorem rewrites_of_undoesParent {rule : Rule} {cancel : Operation → Operation → Bool}
    (hfits : rule.fits = undoesParent cancel)
    (happly : ∀ id, rule.apply id = do
      let parent ← Edit.parent id
      let replaced ← Edit.bypassPair parent id
      return ⟨rule.name, replaced, none⟩)
    (hcancel : ∀ a b, cancel a b = true → ∃ first second,
      a.reading? = some first ∧ b.reading? = some second ∧ Cancel first second) :
    rule.Rewrites := by
  intro table g id hv happlies
  obtain ⟨-, -, -, h⟩ := applies_iff.1 happlies
  rw [hfits] at h
  obtain ⟨childNode, parentNode, d, hn, hp, hop, hbefore, hafter⟩ := undoesParent_iff.1 h
  obtain ⟨first, second, hfirst, hsecond, hc⟩ := hcancel _ _ hop
  obtain ⟨parent, o, hchain⟩ := hv.exists_chain hn hp (Operation.arranges_of_reading hfirst)
    (Operation.arranges_of_reading hsecond)
  rw [hv.sound.node_id _ _ hchain.parent_node, inputDescriptor?_eq, hchain.parent_source,
    Option.bind_some] at hbefore
  refine ⟨_, _, ?_, .bypass hchain (.readings hfirst hsecond hc) (hbefore.trans hafter.symm)⟩
  rw [happly, Edit.bind_ok (Edit.parent_ok hchain.child_source),
    Edit.bind_ok (Edit.bypassPair_ok hchain hv.sound)]
  rfl

theorem inversePermutes_rewrites : inversePermutes.Rewrites := by
  refine rewrites_of_undoesParent rfl (fun _ => rfl) fun a b hab => ?_
  cases a <;> cases b <;> simp only [permutesCancel, Bool.false_eq_true] at hab
  exact ⟨_, _, rfl, rfl, .of_permutes hab⟩

theorem inverseTransposes_rewrites : inverseTransposes.Rewrites := by
  refine rewrites_of_undoesParent rfl (fun _ => rfl) fun a b hab => ?_
  cases a <;> cases b <;> simp only [transposesCancel, Bool.false_eq_true] at hab
  exact ⟨_, _, rfl, rfl, .of_transposes hab⟩

theorem replaceByReshape_rewrites {q : Permutation} {a : Descriptor} (rule : String)
    (hv : g.Valid table) (hn : g.node? id = some node) (hop : node.operation.reading? = some q)
    (hin : g.inputDescriptor? ⟨id, 0⟩ = some a)
    (hlayout : isLayoutPreserving a.shape.dims q.axes = true) :
    ∃ applied h, Edit.replaceByReshape rule id g = .ok applied h ∧ g.Rewrite rule id applied h := by
  have harranges := Operation.arranges_of_reading hop
  obtain ⟨-, hkind, -⟩ := harranges.kind_eq
  rw [inputDescriptor?_eq] at hin
  obtain ⟨o, ho, ha⟩ := Option.bind_eq_some_iff.1 hin
  obtain ⟨-, d, -, hd, -⟩ := hv.unary_takes hn harranges ho
  refine ⟨_, _, ?_, .replace hn hop ho ha hd hlayout⟩
  generalize hname : "merged-" ++ node.name ++ "-into-reshape" = name
  obtain ⟨fresh, hfresh⟩ := exists_fresh g id o name d
  obtain ⟨unread, hunread, hframe, hreaders⟩ := hv.sound.exists_unread hn hkind ho name d
  obtain ⟨removed, hremove⟩ := ((hv.sound.rerouted hn hkind ho).superseding hfresh id
    unread.name).remove_unread ((node?_superseding _ _ _ _).trans hunread)
    (Node.operation_eq_of_frame hframe ▸ harranges) ((readers_superseding _ _ _ _).trans hreaders)
  have hinsert : Edit.insert ⟨id, 0⟩ (.reshape d.shape) name d g =
      .ok g.nodes.size (g.withReshape id o name d) := Edit.insert_ok name d ho rfl rfl
  have hmove : Edit.moveAll ⟨id, 0⟩ ⟨g.nodes.size, 0⟩ (g.withReshape id o name d) =
      .ok () (g.rerouted id o name d) := Edit.moveAll_ok (hv.sound.canReroute hn hkind ho)
  rw [outputDescriptor?_of_node hn] at hd
  rw [Edit.replaceByReshape, Edit.bind_ok (Edit.checkNode_ok hn)]
  simp only [hd, hname]
  rw [Edit.bind_ok hinsert, Edit.bind_ok hmove, Edit.bind_ok (Edit.superseding_ok hfresh hunread),
    Edit.bind_ok (Edit.checkNode_ok ((node?_superseding _ _ _ _).trans hunread)),
    Edit.bind_ok hremove, superseding,
    relatedNodes_rerouted, relatedNodes_rerouted, Node.label_eq_of_frame hframe,
    show unread.name = node.name from congrArg NodeFrame.name hframe]
  rfl

theorem movesNothing_iff {source : List Nat} : movesNothing g id source = true ↔
    ∃ node a d, g.node? id = some node ∧ g.outputDescriptor? ⟨id, 0⟩ = some d ∧
      g.inputDescriptor? ⟨node.id, 0⟩ = some a ∧
      isLayoutPreserving a.shape.dims source = true := by
  simp only [movesNothing, inputDims?, Option.any_eq_true, Option.bind_eq_bind,
    Option.bind_eq_some_iff]
  constructor
  · rintro ⟨_, ⟨node, hn, d, hd, a, ha, hdims⟩, hlayout⟩
    cases hdims
    exact ⟨node, a, d, hn, (outputDescriptor?_of_node hn 0).trans hd, ha, hlayout⟩
  · rintro ⟨node, a, d, hn, hd, ha, hlayout⟩
    rw [outputDescriptor?_of_node hn] at hd
    exact ⟨_, ⟨node, hn, d, hd, a, ha, rfl⟩, hlayout⟩

/-- A rule that puts a reshape in the place of a reordering that moves nothing. -/
theorem rewrites_of_movesNothing {rule : Rule}
    (happly : rule.apply = Edit.replaceByReshape rule.name)
    (hfits : ∀ g id node, g.node? id = some node → rule.fits g id = true →
      ∃ q : Permutation, node.operation.reading? = some q ∧ movesNothing g id q.axes = true) :
    rule.Rewrites := by
  intro table g id hv happlies
  obtain ⟨node, hn, -, h⟩ := applies_iff.1 happlies
  obtain ⟨q, hop, hmoves⟩ := hfits g id node hn h
  obtain ⟨_, a, -, hn', -, ha, hlayout⟩ := movesNothing_iff.1 hmoves
  rw [hv.sound.node_id _ _ hn'] at ha
  rw [happly]
  exact replaceByReshape_rewrites rule.name hv hn hop ha hlayout

theorem permuteAsReshape_rewrites : permuteAsReshape.Rewrites := by
  refine rewrites_of_movesNothing rfl fun g id node hn hfits => ?_
  simp only [permuteAsReshape, permuteMovesNothing, hn, Option.any_some] at hfits
  cases hop : node.operation <;> simp only [hop, Bool.false_eq_true] at hfits
  exact ⟨_, rfl, hfits⟩

theorem transposeAsReshape_rewrites : transposeAsReshape.Rewrites := by
  refine rewrites_of_movesNothing rfl fun g id node hn hfits => ?_
  simp only [transposeAsReshape, transposeMovesNothing, hn, Option.any_some] at hfits
  cases hop : node.operation <;> simp only [hop, Bool.false_eq_true] at hfits
  exact ⟨_, rfl, hfits⟩

theorem standard_rewrites {rule : Rule} (h : rule ∈ standard) : rule.Rewrites := by
  simp only [standard, List.mem_cons, List.not_mem_nil, or_false] at h
  rcases h with rfl | rfl | rfl | rfl | rfl
  · exact consecutiveReshapes_rewrites
  · exact inversePermutes_rewrites
  · exact inverseTransposes_rewrites
  · exact permuteAsReshape_rewrites
  · exact transposeAsReshape_rewrites

end Rule

namespace Graph

/-- A pair that comes to nothing gives back the tensor it reads. -/
theorem Valid.value?_of_undone (hv : g.Valid table) (hs : g.Supported)
    (hc : g.Chain parent child parentNode childNode o)
    (hu : parentNode.operation.Undone childNode.operation)
    {inputs : String → Option Memory} (hf : table.Fed inputs) :
    g.value? f inputs o.node = g.value? f inputs child := by
  generalize hfirst : parentNode.operation = first, hsecond : childNode.operation = second at hu
  cases hu with
  | reshapes inner target =>
    rw [hv.sound.value?_reshape hc.child_node hsecond hc.child_source,
      hv.sound.value?_reshape hc.parent_node hfirst hc.parent_source]
  | @readings _ _ p q hp hq hcancel =>
    subst hfirst hsecond
    obtain ⟨a, b, ha, hb, htake⟩ := hv.unary_takes hc.parent_node hc.parent_arranges
      hc.parent_source
    obtain ⟨hrank, hdims, -⟩ := (Operation.takes_iff_of_reading hp).1 htake
    obtain ⟨m, hm, hsize⟩ := hv.source_value (f := f) hs hf hc.parent_source ha
    rw [hv.sound.value?_reading hc.child_node hq hc.child_source hb,
      hv.sound.value?_reading hc.parent_node hp hc.parent_source ha, hm, Option.map_some,
      Option.map_some, ← hdims, Memory.reorder_reorder hcancel hrank.symm hsize]

theorem Valid.revises_bypassed (hv : g.Valid table)
    (hc : g.Chain parent child parentNode childNode o)
    (hu : parentNode.operation.Undone childNode.operation)
    (hd : g.outputDescriptor? o = g.outputDescriptor? ⟨child, 0⟩) :
    Revises f table g (g.bypassed parent child o) := by
  have hmoved := hv.revises_moveConsumers (f := f) (hc.canMove hv.sound) hd
    fun hs inputs hf => hv.value?_of_undone hs hc hu hf
  obtain ⟨node, hn, -, hop, hunread⟩ := hc.exists_unread hv.sound
  have hskipped := hmoved.trans (hmoved.valid.revises_unread hn (hop ▸ hc.child_arranges) hunread)
  obtain ⟨left, hleft, -, hlop⟩ := hc.parent_skipped hv.sound
  rw [bypassed, released]
  split
  · rename_i hr
    exact hskipped.trans (hskipped.valid.revises_unread hleft (hlop ▸ hc.parent_arranges) hr)
  · exact hskipped

theorem Valid.revises_merged (hv : g.Valid table) {inner target : Shape}
    (hc : g.Chain parent child parentNode childNode o)
    (hparent : parentNode.operation = .reshape inner)
    (hchild : childNode.operation = .reshape target) :
    Revises f table g (g.merged parent child parentNode.name o) := by
  have hover := hv.revises_reconnected (f := f) hc.child_node hchild hc.child_source hc.parent_node
    hparent hc.parent_source
  rw [merged]
  split
  · rename_i hr
    obtain ⟨leftParent, leftChild, hlp, hframe, hlc⟩ := hc.nodes_reconnected
    have hnoted : Revises f table g ((g.reconnected ⟨parent, 0⟩ o ⟨child, 0⟩).superseding child
      parent parentNode.name) := hover.trans (hover.valid.revises_setRelated hlc _)
    exact hnoted.trans (hnoted.valid.revises_unread ((node?_superseding _ _ _ _).trans hlp)
      (Node.operation_eq_of_frame hframe ▸ hc.parent_arranges)
      ((readers_superseding _ _ _ _).trans hr))
  · exact hover

/-- A rewrite leaves a graph that revises the one it found. -/
theorem Rewrite.revises {rule : String} {applied : Applied} {h : Graph}
    (hr : g.Rewrite rule id applied h) (hv : g.Valid table) : Revises f table g h := by
  cases hr with
  | bypass hc hu hd => exact hv.revises_bypassed hc hu hd
  | merge hc hparent hchild _ => exact hv.revises_merged hc hparent hchild
  | replace hn hop ho ha hd hlayout =>
    exact hv.revises_replaced hn ho hd hop ha hlayout
      (hv.sound.replaced hn (Operation.arranges_of_reading hop) ho _ _ _)

theorem Rewrite.valid {rule : String} {applied : Applied} {h : Graph}
    (hr : g.Rewrite rule id applied h) (hv : g.Valid table) : h.Valid table :=
  (hr.revises (f := .nearest) hv).valid

end Graph

end LayerGraph
