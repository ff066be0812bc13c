import LayerGraph.Proofs.History

/-!
# What a rewrite leaves alone

A reshape that replaces a node takes its place exactly: at the same position among the readers
of what the node read, with the node's readers in the same order. A pair that is bypassed or
merged loses one edge, and its second node hands its readers, or itself, to what feeds the
pair. Everything else of the graph is as before.
-/

set_option autoImplicit false

namespace LayerGraph

namespace Graph

variable {g h : Graph} {id parent child k : NodeId} {node parentNode childNode : Node}
  {o s : OutputSlot}

theorem Linked.readers_without (hl : g.Linked) (ho : g.source? ⟨id, 0⟩ = some o)
    (q : OutputSlot) : (g.without id 1).readers q =
      if q.node = id then [] else if q = o then (g.readers o).erase ⟨id, 0⟩ else g.readers q := by
  have hdetached : g.detachAll id 1 = g.unlink o ⟨id, 0⟩ := by
    simp [Graph.detachAll, detach_eq, ho]
  rw [without, hdetached, readers_drop, readers_unlink g o _ (hl.hasOutput_of_source? ho)]

theorem Sound.source_ne (hg : g.Sound) {t : InputSlot} (ho : g.source? t = some o) (i : Nat) :
    o ≠ ⟨t.node, i⟩ := by
  rintro rfl
  exact hg.acyclic.not_edge_self _ (.of_source? ho)

/-- One reader in the place of another. -/
theorem Linked.replace_reader (hl : g.Linked) {t : InputSlot} (ho : g.source? t = some o)
    (r : InputSlot) : ∃ before after, g.readers o = before ++ t :: after ∧
      (g.readers o).replace t r = before ++ r :: after := by
  obtain ⟨before, after, hsplit⟩ := List.append_of_mem ((hl.source_iff t o).1 ho)
  have hnodup := hl.readers_nodup o
  rw [hsplit] at hnodup
  have hbefore : t ∉ before := fun ht =>
    (List.nodup_append.1 hnodup).2.2 t ht t List.mem_cons_self rfl
  refine ⟨before, after, hsplit, ?_⟩
  rw [hsplit, List.replace_append_right hbefore, List.replace_cons_self]

section Replaced

variable {name : String} {d : Descriptor} {labels : List NodeLabel} (hg : g.Sound)
  (hn : g.node? id = some node) (hk : node.kind ≠ .output) (ho : g.source? ⟨id, 0⟩ = some o)

include hg hn hk ho

theorem Sound.readers_rerouted (q : OutputSlot) : (g.rerouted id o name d).readers q =
    if q = ⟨g.nodes.size, 0⟩ then ⟨id, 0⟩ :: g.readers ⟨id, 0⟩ else if q = ⟨id, 0⟩ then []
    else if q = o then (g.readers o).replace ⟨id, 0⟩ ⟨g.nodes.size, 0⟩ else g.readers q := by
  have houtput := hg.linked.hasOutput_of_source? ho
  have hself := hg.source_ne ho 0
  have hfresh : o ≠ ⟨g.nodes.size, 0⟩ := fun h => absurd houtput.node_lt (by simp [h])
  have hid : (⟨id, 0⟩ : OutputSlot) ≠ ⟨g.nodes.size, 0⟩ := fun h =>
    ne_size_of_node hn (congrArg OutputSlot.node h)
  have hreaders : ∀ q, (g.withReshape id o name d).readers q =
      if q = o then (g.readers o).replace ⟨id, 0⟩ ⟨g.nodes.size, 0⟩
      else if q = ⟨g.nodes.size, 0⟩ then [⟨id, 0⟩] else g.readers q :=
    readers_splice_push name d rfl houtput
  have hmove : Edit.CanMove (g.withReshape id o name d) ⟨id, 0⟩ ⟨g.nodes.size, 0⟩ :=
    hg.canReroute hn hk ho
  rw [Graph.rerouted, readers_moveConsumers _ _ _ _ hmove.source hmove.target hmove.ne]
  simp only [hreaders, hfresh.symm, hself.symm, hid, if_true, if_false, List.singleton_append]
  by_cases hq : q = ⟨g.nodes.size, 0⟩ <;> simp [hq]

theorem Sound.readers_replaced (q : OutputSlot) : (g.replaced id o name d labels 1).readers q =
    if q.node = id then [] else if q = ⟨g.nodes.size, 0⟩ then g.readers ⟨id, 0⟩
    else if q = o then (g.readers o).replace ⟨id, 0⟩ ⟨g.nodes.size, 0⟩ else g.readers q := by
  have hsource : ((g.rerouted id o name d).setRelated g.nodes.size labels).source? ⟨id, 0⟩ =
      some ⟨g.nodes.size, 0⟩ := by
    rw [source?_setRelated, hg.source?_rerouted ho, if_pos rfl]
  obtain ⟨fresh, hfresh⟩ := exists_fresh g id o name d
  have hsound := (hg.rerouted hn hk ho).setRelated (contains_iff.2 ⟨fresh, hfresh⟩) labels
  rw [Graph.replaced, hsound.linked.readers_without hsource]
  simp only [readers_setRelated, hg.readers_rerouted hn hk ho, if_true, List.erase_cons_head]
  by_cases hq : q.node = id
  · simp [hq]
  · have hne : q ≠ ⟨id, 0⟩ := fun h => hq (congrArg OutputSlot.node h)
    by_cases hz : q = ⟨g.nodes.size, 0⟩ <;> simp [hq, hz, hne]

end Replaced

theorem live_replaced (name : String) (d : Descriptor) (labels : List NodeLabel) :
    (g.replaced id o name d labels 1).live = g.live := by
  rw [replaced, without, drop, detachAll, (SameNodes.detachAll _ _ _).live, setRelated, rerouted,
    (SameNodes.moveConsumers _ _ _ _).live]
  exact Nat.add_sub_cancel g.live 1

theorem Sound.relatedNodes_fresh (hg : g.Sound) : g.relatedNodes g.nodes.size = [] := by
  rw [List.eq_nil_iff_forall_not_mem]
  intro l hl
  exact Nat.lt_irrefl _ (lt_size_of_contains (hg.contains_of_related hl))

/-- `h` is `g` with the reshape `r` in the place of a node: the reshape has the output
descriptor of the node, stands where the node stood among the readers of what it read, and is
read by the node's readers in their order. -/
structure InPlace (g : Graph) (id : NodeId) (node : Node) (r : NodeId) (h : Graph) : Prop where
  fresh : g.contains r = false
  gone : h.contains id = false
  live : h.live = g.live
  reshape : ∃ d, g.outputDescriptor? ⟨id, 0⟩ = some d ∧ h.frame? r = some
    { id := r, name := "merged-" ++ node.name ++ "-into-reshape", operation := .reshape d.shape
      seq := g.nextSeq, inputCount := 1, descriptors := [some d] }
  related : h.relatedNodes r = ⟨id, node.name⟩ :: g.relatedNodes id
  position : ∃ o before after, g.source? ⟨id, 0⟩ = some o ∧ h.source? ⟨r, 0⟩ = some o ∧
    g.readers o = before ++ ⟨id, 0⟩ :: after ∧ h.readers o = before ++ ⟨r, 0⟩ :: after ∧
    ∀ q, q ≠ o → q.node ≠ id → q.node ≠ r → h.readers q = g.readers q
  readers : h.readers ⟨r, 0⟩ = g.readers ⟨id, 0⟩
  sources : ∀ t ∈ g.readers ⟨id, 0⟩, h.source? t = some ⟨r, 0⟩
  other_sources : ∀ t, t.node ≠ id → t.node ≠ r → t ∉ g.readers ⟨id, 0⟩ →
    h.source? t = g.source? t
  other_frames : ∀ k, k ≠ id → k ≠ r → h.frame? k = g.frame? k
  other_related : ∀ k, k ≠ id → k ≠ r → h.relatedNodes k = g.relatedNodes k

theorem Sound.inPlace_replaced (hg : g.Sound) (hn : g.node? id = some node)
    (hk : node.kind ≠ .output) (ho : g.source? ⟨id, 0⟩ = some o) {d : Descriptor}
    (hd : g.outputDescriptor? ⟨id, 0⟩ = some d) :
    g.InPlace id node g.nodes.size
      (g.replaced id o ("merged-" ++ node.name ++ "-into-reshape") d
        (g.relatedNodes g.nodes.size ++ ⟨id, node.name⟩ :: g.relatedNodes id) 1) := by
  have hid := ne_size_of_node hn
  have hfresh : g.node? g.nodes.size = none := node?_eq_none_of_size_le g (Nat.le_refl _)
  have houtput := hg.linked.hasOutput_of_source? ho
  have hsource : ∀ t ∈ g.readers ⟨id, 0⟩, t.node ≠ id := by
    intro t ht heq
    exact hg.source_ne ((hg.linked.source_iff t _).2 ht) 0 (by rw [heq])
  constructor
  case fresh => simp [contains, hfresh]
  case gone => simp [contains_eq_frame?, frame?_replaced]
  case live => exact live_replaced _ _ _
  case reshape =>
    refine ⟨d, hd, ?_⟩
    rw [frame?_replaced, if_neg hid.symm, frame?_withReshape, if_pos rfl]
    rfl
  case related =>
    rw [Graph.replaced, relatedNodes_without, if_neg hid.symm, relatedNodes_setRelated, if_pos rfl,
      hg.relatedNodes_fresh, List.nil_append]
  case position =>
    obtain ⟨before, after, hbefore, hafter⟩ := hg.linked.replace_reader ho ⟨g.nodes.size, 0⟩
    refine ⟨o, before, after, ho, ?_, hbefore, ?_, fun q hq hqid hqr => ?_⟩
    · rw [hg.source?_replaced ho, if_neg hid.symm, if_pos rfl]
    · rw [hg.readers_replaced hn hk ho, if_neg (fun h => hg.source_ne ho o.index (by rw [← h])),
        if_neg (fun h => absurd houtput.node_lt (by simp [h])), if_pos rfl, hafter]
    · rw [hg.readers_replaced hn hk ho, if_neg hqid,
        if_neg (fun h => hqr (congrArg OutputSlot.node h)), if_neg hq]
  case readers => rw [hg.readers_replaced hn hk ho, if_neg hid.symm, if_pos rfl]
  case sources =>
    intro t ht
    have hread := (hg.linked.source_iff t _).2 ht
    have hne : t ≠ ⟨g.nodes.size, 0⟩ := by
      rintro rfl
      rw [source?_of_hole hfresh] at hread
      cases hread
    rw [hg.source?_replaced ho, if_neg (hsource t ht), if_neg hne, if_pos hread]
  case other_sources =>
    intro t htid htr ht
    rw [hg.source?_replaced ho, if_neg htid, if_neg (fun h => htr (congrArg InputSlot.node h)),
      if_neg (fun h => ht ((hg.linked.source_iff t _).1 h))]
  case other_frames => exact fun k hkid hkr => frame?_replaced_of_ne hkid hkr
  case other_related =>
    intro k hkid hkr
    rw [Graph.replaced, relatedNodes_without, if_neg hkid, relatedNodes_setRelated, if_neg hkr,
      relatedNodes_rerouted]

/-- A rewrite of a permute or a transpose that records a replacement puts a reshape in its
place. -/
theorem Rewrite.inPlace {rule : String} {applied : Applied} (hr : g.Rewrite rule id applied h)
    (hg : g.Sound) (hn : g.node? id = some node) (hop : node.operation.reorders = true)
    (hsome : applied.replacement ≠ none) :
    applied = ⟨rule, [node.label], some g.nodes.size⟩ ∧ g.InPlace id node g.nodes.size h := by
  cases hr with
  | bypass => exact absurd rfl hsome
  | merge hc _ hreshape =>
    obtain rfl := Option.some.inj (hn.symm.trans hc.child_node)
    rw [hreshape] at hop
    cases hop
  | replace hn' hreads ho _ hd _ =>
    obtain rfl := Option.some.inj (hn.symm.trans hn')
    have hkind := (Operation.arranges_of_reading hreads).kind_eq.2.1
    exact ⟨rfl, hg.inPlace_replaced hn hkind ho hd⟩

/-- On a valid graph the two rules for reorderings that move nothing never fail, and the graph
they leave is the old one with a reshape in the place of the node. -/
theorem reshape_in_place {rule : Rule} (hg : g.Reachable) (hvalid : g.validate = .ok ())
    (hrule : rule = Rule.transposeAsReshape ∨ rule = Rule.permuteAsReshape)
    (happlies : rule.applies g id = true) :
    ∃ node h, g.node? id = some node ∧
      rule.apply id g = .ok ⟨rule.name, [node.label], some g.nodes.size⟩ h ∧
      g.InPlace id node g.nodes.size h := by
  obtain ⟨table, hv⟩ := hg.sound.validate_eq_ok_iff.1 hvalid
  have hmem : rule ∈ Rule.standard.tail := by
    rcases hrule with rfl | rfl <;> simp [Rule.standard]
  obtain ⟨applied, h, happly, hr⟩ :=
    Rule.standard_rewrites (List.mem_of_mem_tail hmem) table g id hv happlies
  obtain ⟨node, hn, hadmits, -⟩ := Rule.applies_iff.1 happlies
  have hsome : applied.replacement ≠ none := by
    rcases hrule with rfl | rfl <;> exact Rule.replacement_of_replaceByReshape happly
  obtain ⟨rfl, hplace⟩ := hr.inPlace hg.sound hn (Rule.reorders_of_admits hmem hadmits) hsome
  exact ⟨node, h, hn, happly, hplace⟩

open Network in
/-- A transpose that moves nothing between two other readers of one input, read twice by an
addition; and two reshapes in a row. -/
def weave : Graph := Graph.empty.changed
  [.add (.input 0) "x", .setDescriptor ⟨0, 0⟩ row, .add (.output 0) "a", .connect ⟨0, 0⟩ ⟨1, 0⟩,
    .add (.transpose swap) "t", .connect ⟨0, 0⟩ ⟨2, 0⟩, .setDescriptor ⟨2, 0⟩ column,
    .add (.output 1) "b", .connect ⟨0, 0⟩ ⟨3, 0⟩,
    .add .addition "s", .connect ⟨2, 0⟩ ⟨4, 0⟩, .connect ⟨2, 0⟩ ⟨4, 1⟩,
    .setDescriptor ⟨4, 0⟩ column, .add (.output 2) "y", .connect ⟨4, 0⟩ ⟨5, 0⟩,
    .add (.reshape wide.shape) "r", .connect ⟨0, 0⟩ ⟨6, 0⟩, .setDescriptor ⟨6, 0⟩ wide,
    .add (.reshape tall.shape) "q", .connect ⟨6, 0⟩ ⟨7, 0⟩, .setDescriptor ⟨7, 0⟩ tall,
    .add (.output 3) "z", .connect ⟨7, 0⟩ ⟨8, 0⟩]

theorem reshape_in_place_weave :
    weave.Reachable ∧ weave.validate = .ok () ∧
      Rule.transposeAsReshape.applies weave 2 = true ∧
      ∃ applied h, Rule.transposeAsReshape.apply 2 weave = .ok applied h ∧
        h.readers ⟨0, 0⟩ = [⟨1, 0⟩, ⟨9, 0⟩, ⟨3, 0⟩, ⟨6, 0⟩] ∧
        h.readers ⟨9, 0⟩ = [⟨4, 0⟩, ⟨4, 1⟩] ∧ h.source? ⟨4, 1⟩ = some ⟨9, 0⟩ := by
  have hg : weave.Reachable := .changed .empty _
  have hvalid : weave.validate = .ok () := by decide +kernel
  have happlies : Rule.transposeAsReshape.applies weave 2 = true := by decide +kernel
  have hsize : weave.nodes.size = 9 := by decide +kernel
  have hread : weave.readers ⟨2, 0⟩ = [⟨4, 0⟩, ⟨4, 1⟩] := by decide +kernel
  have hlist : weave.readers ⟨0, 0⟩ = [⟨1, 0⟩, ⟨2, 0⟩, ⟨3, 0⟩, ⟨6, 0⟩] := by decide +kernel
  obtain ⟨node, h, -, happly, hplace⟩ := reshape_in_place hg hvalid (.inl rfl) happlies
  rw [hsize] at hplace
  obtain ⟨o, before, after, ho, -, hbefore, hafter, -⟩ := hplace.position
  obtain rfl : ⟨0, 0⟩ = o := Option.some.inj (Eq.trans (by decide +kernel) ho)
  refine ⟨hg, hvalid, happlies, _, h, happly, ?_, hplace.readers.trans hread,
    hplace.sources _ (by simp [hread])⟩
  rw [hlist] at hbefore
  rw [hafter]
  -- the transpose stands second
  obtain _ | ⟨a, _ | ⟨b, _ | ⟨c, _ | ⟨e, before⟩⟩⟩⟩ := before <;> simp at hbefore
  simp [← hbefore.1, ← hbefore.2]

theorem contains_superseding (id old : NodeId) (name : String) :
    (g.superseding id old name).contains k = g.contains k := rfl

section Pairs

variable {moved : List InputSlot}

/-- The nodes of `h` are nodes of `g`, wired as before but for the slots `moved`, which read `s`,
and for the readers of `s` and of `parent`. -/
structure KeepsRest (g : Graph) (parent : NodeId) (s : OutputSlot) (moved : List InputSlot)
    (h : Graph) : Prop where
  frames : ∀ k, h.contains k = true → h.frame? k = g.frame? k
  moved_sources : ∀ t ∈ moved, h.source? t = some s
  other_sources : ∀ t, h.contains t.node = true → t ∉ moved → h.source? t = g.source? t
  other_readers : ∀ q, h.contains q.node = true → q ≠ s → q ≠ ⟨parent, 0⟩ →
    h.readers q = g.readers q

/-- `child` no longer reads `parent`, and what reads `s` from now on comes after what did. -/
structure Detours (g : Graph) (parent child : NodeId) (s : OutputSlot) (moved : List InputSlot)
    (h : Graph) : Prop extends g.KeepsRest parent s moved h where
  kept : ∀ k, g.contains k = true → k ≠ child → h.contains k = true
  source_readers : h.readers s = g.readers s ++ moved
  parent_readers : h.readers ⟨parent, 0⟩ = (g.readers ⟨parent, 0⟩).erase ⟨child, 0⟩

/-- What a rewrite of a pair leaves. The slots `moved` read `s`, after all that read it before;
`parent` loses `child` as a reader, and is gone just when it had no other. -/
structure FoldsPair (g : Graph) (parent child : NodeId) (s : OutputSlot) (moved : List InputSlot)
    (h : Graph) : Prop extends g.KeepsRest parent s moved h where
  kept : ∀ k, g.contains k = true → k ≠ parent → k ≠ child → h.contains k = true
  parent_gone : h.contains parent = false ↔ g.readers ⟨parent, 0⟩ = [⟨child, 0⟩]
  parent_readers : h.contains parent = true →
    h.readers ⟨parent, 0⟩ = (g.readers ⟨parent, 0⟩).erase ⟨child, 0⟩
  parent_slot : ⟨parent, 0⟩ ∈ h.readers s ↔ h.contains parent = true
  source_readers : h.readers s =
    (if h.contains parent then g.readers s else (g.readers s).erase ⟨parent, 0⟩) ++ moved

theorem Detours.superseding (hd : g.Detours parent child s moved h) (id old : NodeId)
    (name : String) : g.Detours parent child s moved (h.superseding id old name) :=
  ⟨⟨hd.frames, hd.moved_sources, hd.other_sources, hd.other_readers⟩, hd.kept, hd.source_readers,
    hd.parent_readers⟩

variable (hc : g.Chain parent child parentNode childNode s) (hg : g.Sound)

include hc hg

theorem Chain.not_slot {t : InputSlot} (ht : t ∈ g.readers ⟨child, 0⟩) :
    t.node ≠ child ∧ t.node ≠ parent := by
  have hedge : g.Edge child t.node := .of_source? ((hg.linked.source_iff t _).2 ht)
  constructor
  · intro heq
    exact hg.acyclic.not_edge_self child (heq ▸ hedge)
  · intro heq
    exact hg.acyclic _ (.tail (.single (.of_source? hc.child_source)) (heq ▸ hedge))

theorem Chain.source_ne : s ≠ ⟨parent, 0⟩ ∧ s.node ≠ child ∧ s.node ≠ parent := by
  have hfeeds : g.Edge s.node parent := .of_source? hc.parent_source
  have hnode : s.node ≠ parent := fun heq =>
    hg.acyclic.not_edge_self parent (by rwa [heq] at hfeeds)
  refine ⟨fun heq => hnode (congrArg OutputSlot.node heq), fun heq => ?_, hnode⟩
  exact hg.acyclic _ (.tail (.single (heq ▸ hfeeds)) (.of_source? hc.child_source))

theorem Chain.readers_skipped (q : OutputSlot) : (g.skipped child s).readers q =
    if q.node = child then []
    else if q = ⟨parent, 0⟩ then (g.readers ⟨parent, 0⟩).erase ⟨child, 0⟩
    else if q = s then g.readers s ++ g.readers ⟨child, 0⟩ else g.readers q := by
  have hmove := hc.canMove hg
  have hreads : (g.moveConsumers ⟨child, 0⟩ s (g.readers ⟨child, 0⟩)).source? ⟨child, 0⟩ =
      some ⟨parent, 0⟩ := by
    rw [source?_moveConsumers g _ _ _ fun t => hg.linked.hasInput_of_mem_readers,
      if_neg (fun h => (hc.not_slot hg h).1 rfl), hc.child_source]
  rw [skipped, (hg.moveConsumers hmove).linked.readers_without hreads]
  simp only [readers_moveConsumers g _ _ _ hmove.source hmove.target hmove.ne]
  by_cases hq : q.node = child
  · simp [hq]
  · have hne : q ≠ ⟨child, 0⟩ := fun h => hq (congrArg OutputSlot.node h)
    simp [hq, hne, (hc.source_ne hg).1.symm, hc.ne hg]

theorem Chain.readers_reconnected (q : OutputSlot) :
    (g.reconnected ⟨parent, 0⟩ s ⟨child, 0⟩).readers q =
      if q = s then g.readers s ++ [⟨child, 0⟩]
      else if q = ⟨parent, 0⟩ then (g.readers ⟨parent, 0⟩).erase ⟨child, 0⟩
      else g.readers q := by
  have houtput := hg.linked.hasOutput_of_source? hc.child_source
  have houtput' := hg.linked.hasOutput_of_source? hc.parent_source
  rw [reconnected, readers_link _ _ _ ((hasOutput_congr (frame?_unlink g _ _) s).2 houtput'),
    readers_unlink g _ _ houtput, readers_unlink g _ _ houtput, if_neg (hc.source_ne hg).1]

/-- The readers of `child` go on to `s`, and `child` goes. -/
theorem Chain.detours_skipped :
    g.Detours parent child s (g.readers ⟨child, 0⟩) (g.skipped child s) := by
  obtain ⟨hsource, hchild, -⟩ := hc.source_ne hg
  have hleft : ∀ {k}, (g.skipped child s).contains k = true → k ≠ child := by
    rintro k hk rfl
    simp [contains_eq_frame?, frame?_skipped] at hk
  refine ⟨⟨fun k hk => ?_, fun t ht => ?_, fun t hk ht => ?_, fun q hk hqs hqp => ?_⟩,
    fun k hk hkc => ?_, ?_, ?_⟩
  · rw [frame?_skipped, if_neg (hleft hk)]
  · rw [hg.source?_skipped, if_neg (hc.not_slot hg ht).1, if_pos ((hg.linked.source_iff t _).2 ht)]
  · rw [hg.source?_skipped, if_neg (hleft hk),
      if_neg (fun h => ht ((hg.linked.source_iff t _).1 h))]
  · rw [hc.readers_skipped hg, if_neg (hleft hk), if_neg hqp, if_neg hqs]
  · rwa [contains_eq_frame?, frame?_skipped, if_neg hkc, ← contains_eq_frame?]
  · rw [hc.readers_skipped hg, if_neg hchild, if_neg hsource, if_pos rfl]
  · rw [hc.readers_skipped hg, if_neg (hc.ne hg), if_pos rfl]

/-- `child` itself goes on to `s`. -/
theorem Chain.detours_reconnected :
    g.Detours parent child s [⟨child, 0⟩] (g.reconnected ⟨parent, 0⟩ s ⟨child, 0⟩) := by
  have hsource := (hc.source_ne hg).1
  refine ⟨⟨fun k _ => frame?_reconnected _ k, fun t ht => ?_, fun t _ ht => ?_,
    fun q _ hqs hqp => ?_⟩, fun k hk _ => ?_, ?_, ?_⟩
  · rw [source?_reconnected hc.child_source, if_pos (List.mem_singleton.1 ht)]
  · rw [source?_reconnected hc.child_source, if_neg (fun h => ht (List.mem_singleton.2 h))]
  · rw [hc.readers_reconnected hg, if_neg hqs, if_neg hqp]
  · rwa [contains_eq_frame?, frame?_reconnected, ← contains_eq_frame?]
  · rw [hc.readers_reconnected hg, if_pos rfl]
  · rw [hc.readers_reconnected hg, if_neg hsource.symm, if_pos rfl]

section Released

variable (hd : g.Detours parent child s moved h) (hh : h.Linked)
  (hmoved : ∀ t ∈ moved, t.node ≠ parent)

include hd hh hmoved

theorem Chain.foldsPair_kept (hread : h.readers ⟨parent, 0⟩ ≠ []) :
    g.FoldsPair parent child s moved h := by
  have hparent : h.contains parent = true :=
    hd.kept _ (contains_iff.2 ⟨_, hc.parent_node⟩) (hc.ne hg)
  have hslot : h.source? ⟨parent, 0⟩ = some s := by
    rw [hd.other_sources _ hparent (fun h => hmoved _ h rfl), hc.parent_source]
  refine ⟨hd.toKeepsRest, fun k hk _ hkc => hd.kept k hk hkc, ?_, fun _ => hd.parent_readers,
    ?_, ?_⟩
  · rw [hparent]
    refine iff_of_false (by simp) fun honly => hread ?_
    rw [hd.parent_readers, honly, List.erase_cons_head]
  · rw [← hh.source_iff, hslot, hparent]
    simp
  · rw [hparent, if_pos rfl, hd.source_readers]

theorem Chain.foldsPair_dropped (hread : h.readers ⟨parent, 0⟩ = []) :
    g.FoldsPair parent child s moved (h.without parent 1) := by
  obtain ⟨hsource, -, hnode⟩ := hc.source_ne hg
  have hparent : h.contains parent = true :=
    hd.kept _ (contains_iff.2 ⟨_, hc.parent_node⟩) (hc.ne hg)
  have hgone : (h.without parent 1).contains parent = false := by
    simp [contains_eq_frame?, frame?_without]
  have hslot : h.source? ⟨parent, 0⟩ = some s := by
    rw [hd.other_sources _ hparent (fun h => hmoved _ h rfl), hc.parent_source]
  have hreaders := hh.readers_without hslot
  have hlist : (h.without parent 1).readers s = (g.readers s).erase ⟨parent, 0⟩ ++ moved := by
    rw [hreaders, if_neg hnode, if_pos rfl, hd.source_readers,
      List.erase_append_left _ ((hg.linked.source_iff _ _).1 hc.parent_source)]
  refine ⟨⟨fun k hk => ?_, fun t ht => ?_, fun t hk ht => ?_, fun q hk hqs hqp => ?_⟩,
    fun k hk hkp hkc => ?_, ?_, ?_, ?_, ?_⟩
  · obtain ⟨hne, hk⟩ := (contains_without _).1 hk
    rw [frame?_without, if_neg hne, hd.frames k hk]
  · rw [source?_without, if_neg (hmoved t ht), hd.moved_sources t ht]
  · obtain ⟨hne, hk⟩ := (contains_without _).1 hk
    rw [source?_without, if_neg hne, hd.other_sources t hk ht]
  · obtain ⟨hne, hk⟩ := (contains_without _).1 hk
    rw [hreaders, if_neg hne, if_neg hqs, hd.other_readers q hk hqs hqp]
  · exact (contains_without _).2 ⟨hkp, hd.kept k hk hkc⟩
  · refine iff_of_true hgone ?_
    rw [hd.parent_readers, List.erase_eq_nil_iff] at hread
    refine hread.resolve_left fun hnil => ?_
    have hmem := (hg.linked.source_iff _ _).1 hc.child_source
    rw [hnil] at hmem
    cases hmem
  · intro hk
    rw [hgone] at hk
    cases hk
  · rw [hgone, hreaders, if_neg hnode, if_pos rfl, (hh.readers_nodup s).mem_erase_iff]
    simp
  · rw [hgone, hlist]
    rfl

end Released

theorem Chain.foldsPair_bypassed :
    g.FoldsPair parent child s (g.readers ⟨child, 0⟩) (g.bypassed parent child s) := by
  have hlinked := (hc.sound_skipped hg).linked
  have hmoved : ∀ t ∈ g.readers ⟨child, 0⟩, t.node ≠ parent := fun t ht => (hc.not_slot hg ht).2
  rw [bypassed, released]
  split
  · rename_i hread
    exact hc.foldsPair_dropped hg (hc.detours_skipped hg) hlinked hmoved hread
  · rename_i hread
    exact hc.foldsPair_kept hg (hc.detours_skipped hg) hlinked hmoved hread

theorem Chain.foldsPair_merged (name : String) :
    g.FoldsPair parent child s [⟨child, 0⟩] (g.merged parent child name s) := by
  have hsound := hg.reconnected hc.child_source hc.parent_source
  have hmoved : ∀ t ∈ [(⟨child, 0⟩ : InputSlot)], t.node ≠ parent := by
    simpa using (hc.ne hg).symm
  obtain ⟨-, leftChild, -, -, hlc⟩ := hc.nodes_reconnected
  rw [merged]
  split
  · rename_i hread
    exact hc.foldsPair_dropped hg ((hc.detours_reconnected hg).superseding child parent name)
      (hsound.superseding hlc parent name).linked hmoved
      ((readers_superseding _ _ _ _).trans hread)
  · rename_i hread
    exact hc.foldsPair_kept hg (hc.detours_reconnected hg) hsound.linked hmoved hread

theorem Chain.contains_merged (name : String) :
    (g.merged parent child name s).contains child = true := by
  have hover : (g.reconnected ⟨parent, 0⟩ s ⟨child, 0⟩).contains child = true := by
    rw [contains_eq_frame?, frame?_reconnected, ← contains_eq_frame?]
    exact contains_iff.2 ⟨_, hc.child_node⟩
  rw [merged]
  split
  · refine (contains_without _).2 ⟨(hc.ne hg).symm, ?_⟩
    rw [contains_superseding, hover]
  · exact hover

end Pairs

/-- A rewrite that puts in no node bypasses or merges a pair. -/
theorem Rewrite.foldsPair {rule : String} {applied : Applied}
    (hr : g.Rewrite rule child applied h) (hg : g.Sound) (hn : g.node? child = some childNode)
    (hnew : applied.replacement ≠ some g.nodes.size) :
    ∃ parent s, g.source? ⟨child, 0⟩ = some ⟨parent, 0⟩ ∧ g.source? ⟨parent, 0⟩ = some s ∧
      (g.outputDescriptor? s = g.outputDescriptor? ⟨child, 0⟩ → h.contains child = false ∧
        g.FoldsPair parent child s (g.readers ⟨child, 0⟩) h) ∧
      (g.outputDescriptor? s ≠ g.outputDescriptor? ⟨child, 0⟩ →
        childNode.operation.isReshape = true ∧ h.contains child = true ∧
        g.FoldsPair parent child s [⟨child, 0⟩] h) := by
  cases hr with
  | @bypass parent _ _ s hc _ hsame =>
    refine ⟨parent, s, hc.child_source, hc.parent_source, fun _ => ⟨?_, hc.foldsPair_bypassed hg⟩,
      fun hne => absurd hsame hne⟩
    rw [contains_eq_frame?, frame?_bypassed_child]
    rfl
  | @merge parent _ _ s _ _ hc _ hop hdiffers =>
    refine ⟨parent, s, hc.child_source, hc.parent_source, fun heq => absurd heq hdiffers,
      fun _ => ⟨?_, hc.contains_merged hg _, hc.foldsPair_merged hg _⟩⟩
    obtain rfl := Option.some.inj (hn.symm.trans hc.child_node)
    rw [hop]
    rfl
  | replace => exact absurd rfl hnew

/-- On a valid graph the three rules for pairs never fail. Where the pair gives back the
descriptor of what it reads it is bypassed: the second node is gone and its readers read what
feeds the pair. Otherwise the pair is one of reshapes, and the second reads what feeds the
first. Nothing else of the graph changes. -/
theorem pair_rewrites_local {rule : Rule} (hg : g.Reachable) (hvalid : g.validate = .ok ())
    (hrule : rule ∈ [Rule.consecutiveReshapes, Rule.inversePermutes, Rule.inverseTransposes])
    (happlies : rule.applies g child = true) :
    ∃ parent s applied h, g.source? ⟨child, 0⟩ = some ⟨parent, 0⟩ ∧
      g.source? ⟨parent, 0⟩ = some s ∧ rule.apply child g = .ok applied h ∧
      (g.outputDescriptor? s = g.outputDescriptor? ⟨child, 0⟩ → h.contains child = false ∧
        g.FoldsPair parent child s (g.readers ⟨child, 0⟩) h) ∧
      (g.outputDescriptor? s ≠ g.outputDescriptor? ⟨child, 0⟩ →
        rule = Rule.consecutiveReshapes ∧ h.contains child = true ∧
        g.FoldsPair parent child s [⟨child, 0⟩] h) := by
  obtain ⟨table, hv⟩ := hg.sound.validate_eq_ok_iff.1 hvalid
  obtain ⟨childNode, hn, hadmits, -⟩ := Rule.applies_iff.1 happlies
  have hmem : rule ∈ Rule.standard := by
    simp only [List.mem_cons, List.not_mem_nil, or_false] at hrule
    rcases hrule with rfl | rfl | rfl <;> simp [Rule.standard]
  obtain ⟨applied, h, happly, hr⟩ := Rule.standard_rewrites hmem table g child hv happlies
  have hnew : applied.replacement ≠ some g.nodes.size := by
    simp only [List.mem_cons, List.not_mem_nil, or_false] at hrule
    rcases hrule with rfl | rfl | rfl
    · exact hr.replacement_of_isReshape hn hadmits
    · simp [Rule.replacement_of_bypassPair happly]
    · simp [Rule.replacement_of_bypassPair happly]
  obtain ⟨parent, s, hchild, hparent, hsame, hdiffers⟩ := hr.foldsPair hg.sound hn hnew
  refine ⟨parent, s, applied, h, hchild, hparent, happly, hsame, fun hne => ?_⟩
  obtain ⟨hreshape, hfolds⟩ := hdiffers hne
  refine ⟨?_, hfolds⟩
  -- the other two rules look at permutes and transposes only
  rcases List.mem_cons.1 hmem with rfl | htail
  · rfl
  · have hreorders := Rule.reorders_of_admits htail hadmits
    cases hop : childNode.operation <;> rw [hop] at hreorders hreshape <;> cases hreshape
    cases hreorders

open Network in
theorem pair_rewrites_local_weave :
    weave.Reachable ∧ weave.validate = .ok () ∧
      Rule.consecutiveReshapes.applies weave 7 = true ∧
      (∃ applied h, Rule.consecutiveReshapes.apply 7 weave = .ok applied h ∧
        h.contains 6 = false ∧ h.contains 7 = true ∧ h.source? ⟨7, 0⟩ = some ⟨0, 0⟩ ∧
        h.readers ⟨0, 0⟩ = [⟨1, 0⟩, ⟨2, 0⟩, ⟨3, 0⟩, ⟨7, 0⟩]) ∧
      folding.Reachable ∧ folding.validate = .ok () ∧
      Rule.inverseTransposes.applies folding 2 = true ∧
      ∃ applied h, Rule.inverseTransposes.apply 2 folding = .ok applied h ∧
        h.contains 2 = false ∧ h.contains 1 = true ∧ h.readers ⟨1, 0⟩ = [⟨4, 0⟩] ∧
        h.readers ⟨0, 0⟩ = [⟨1, 0⟩, ⟨3, 0⟩, ⟨5, 0⟩] := by
  have hg : weave.Reachable := .changed .empty _
  have hvalid : weave.validate = .ok () := by decide +kernel
  have happlies : Rule.consecutiveReshapes.applies weave 7 = true := by decide +kernel
  have hg' : folding.Reachable := .changed .empty _
  have hvalid' : folding.validate = .ok () := by decide +kernel
  have happlies' : Rule.inverseTransposes.applies folding 2 = true := by decide +kernel
  refine ⟨hg, hvalid, happlies, ?_, hg', hvalid', happlies', ?_⟩
  · obtain ⟨parent, s, applied, h, hchild, hparent, happly, -, hmerge⟩ :=
      pair_rewrites_local hg hvalid (by simp) happlies
    cases (show weave.source? ⟨7, 0⟩ = some ⟨6, 0⟩ by decide +kernel).symm.trans hchild
    cases (show weave.source? ⟨6, 0⟩ = some ⟨0, 0⟩ by decide +kernel).symm.trans hparent
    obtain ⟨-, hchild, hfolds⟩ := hmerge (by decide +kernel)
    have hgone : h.contains 6 = false := hfolds.parent_gone.2 (by decide +kernel)
    refine ⟨applied, h, happly, hgone, hchild, hfolds.moved_sources _ (by simp), ?_⟩
    rw [hfolds.source_readers, hgone]
    decide +kernel
  · obtain ⟨parent, s, applied, h, hchild, hparent, happly, hbypass, -⟩ :=
      pair_rewrites_local hg' hvalid' (by simp) happlies'
    cases (show folding.source? ⟨2, 0⟩ = some ⟨1, 0⟩ by decide +kernel).symm.trans hchild
    cases (show folding.source? ⟨1, 0⟩ = some ⟨0, 0⟩ by decide +kernel).symm.trans hparent
    obtain ⟨hchild, hfolds⟩ := hbypass (by decide +kernel)
    have hkept : h.contains 1 = true := by
      rw [← Bool.not_eq_false, hfolds.parent_gone]
      decide +kernel
    refine ⟨applied, h, happly, hchild, hkept, (hfolds.parent_readers hkept).trans ?_, ?_⟩
    · decide +kernel
    · rw [hfolds.source_readers, hkept]
      decide +kernel

end Graph

end LayerGraph
