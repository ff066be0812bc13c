import LayerGraph.Proofs.Convergence

/-!
# What a report accounts for

A rewrite names the nodes it takes away, and nothing else is lost; the one node it may add
takes the next free position of the arena and is the replacement it records. Over a whole
run the records therefore name every node that is lost exactly once, and the replacements
of the two rules that put in reshapes count on from the size of the arena.
-/

set_option autoImplicit false

namespace LayerGraph

open LayerGraph.Graph

namespace Graph

variable {g h : Graph} {l l' : NodeLabel} {id k : NodeId}

def Holds (g : Graph) (l : NodeLabel) : Prop :=
  ∃ node, g.node? l.id = some node ∧ node.name = l.name

theorem holds_iff_frame : g.Holds l ↔ ∃ f, g.frame? l.id = some f ∧ f.name = l.name := by
  simp only [Holds, frame?_eq_some_iff]
  constructor
  · rintro ⟨node, hn, hname⟩
    exact ⟨node.frame, ⟨node, hn, rfl⟩, hname⟩
  · rintro ⟨_, ⟨node, hn, rfl⟩, hname⟩
    exact ⟨node, hn, hname⟩

theorem Holds.contains (h : g.Holds l) : g.contains l.id = true :=
  contains_iff.2 ⟨h.choose, h.choose_spec.1⟩

theorem Holds.unique (h : g.Holds l) (h' : g.Holds l') (hid : l.id = l'.id) : l = l' := by
  obtain ⟨node, hn, hname⟩ := h
  obtain ⟨node', hn', hname'⟩ := h'
  obtain ⟨id, name⟩ := l
  obtain ⟨id', name'⟩ := l'
  obtain rfl : id = id' := hid
  obtain rfl := Option.some.inj (hn.symm.trans hn')
  exact congrArg _ (hname.symm.trans hname')

theorem exists_holds (h : g.contains id = true) : ∃ l, g.Holds l ∧ l.id = id := by
  obtain ⟨node, hn⟩ := contains_iff.1 h
  exact ⟨⟨id, node.name⟩, ⟨node, hn, rfl⟩, rfl⟩

theorem Sound.holds_label (hg : g.Sound) {node : Node} (hn : g.node? id = some node) :
    g.Holds node.label ∧ node.label.id = id := by
  have hid : node.label.id = id := hg.node_id id node hn
  exact ⟨⟨node, hid.symm ▸ hn, rfl⟩, hid⟩

theorem size_without (count : Nat) : (g.without id count).nodes.size = g.nodes.size := by
  rw [without, drop, Array.size_modify, Graph.detachAll, (SameNodes.detachAll g id _).size]

theorem lookup_filter_key {entries : List (NodeId × List NodeLabel)} :
    (entries.filter fun entry => entry.1 != id).lookup k =
      if k = id then none else entries.lookup k := by
  induction entries with
  | nil => simp
  | cons entry rest ih =>
    by_cases hkey : entry.1 = id
    · rw [List.filter_cons_of_neg (by simp [hkey]), ih, lookup_cons_eq, hkey]
      split <;> rfl
    · rw [List.filter_cons_of_pos (by simp [hkey]), lookup_cons_eq, lookup_cons_eq, ih]
      by_cases hk : k = entry.1
      · simp [hk, hkey]
      · simp [hk]

theorem relatedNodes_without (count : Nat) :
    (g.without id count).relatedNodes k = if k = id then [] else g.relatedNodes k := by
  rw [relatedNodes, without, drop, lookup_filter_key, Graph.detachAll,
    (SameNodes.detachAll g id _).related]
  split <;> rfl

theorem relatedNodes_setRelated (labels : List NodeLabel) :
    (g.setRelated id labels).relatedNodes k = if k = id then labels else g.relatedNodes k := by
  rw [relatedNodes, setRelated, lookup_cons_eq]
  by_cases hk : k = id
  · rw [if_pos hk, if_pos hk, Option.getD_some]
  · rw [if_neg hk, if_neg hk, lookup_filter_key, if_neg hk, relatedNodes]

theorem SameNodes.relatedNodes (hs : g.SameNodes h) : h.relatedNodes k = g.relatedNodes k := by
  rw [Graph.relatedNodes, hs.related, Graph.relatedNodes]

end Graph

def Applied.creates (a : Applied) : Bool :=
  a.rule == Rule.permuteAsReshape.name || a.rule == Rule.transposeAsReshape.name

namespace Graph

/-- What a record says of the graphs before and after it: the nodes that were replaced are
lost with their histories, the replacement takes these over, and all else is kept. -/
structure Records (g : Graph) (applied : Applied) (h : Graph) : Prop where
  distinct : (applied.replaced.map (·.id)).Nodup
  held : ∀ l ∈ applied.replaced, g.Holds l
  lost : ∀ l ∈ applied.replaced, h.contains l.id = false
  kept : ∀ l, g.Holds l → l ∉ applied.replaced → h.Holds l
  added : ∀ l, h.Holds l → g.Holds l ∨ l.id = g.nodes.size ∧ applied.replacement = some l.id
  replacement : ∀ r, applied.replacement = some r → h.contains r = true
  size : h.nodes.size = g.nodes.size + if applied.replacement = some g.nodes.size then 1 else 0
  related : ∀ k, h.contains k = true → h.relatedNodes k = g.relatedNodes k ++
    if applied.replacement = some k then
      applied.replaced.flatMap fun l => l :: g.relatedNodes l.id
    else []

variable {table : BindingTable} {g h : Graph} {id parent : NodeId} {node parentNode : Node}
  {o : OutputSlot} {rule : String} {applied : Applied}

/-- Losing some nodes of a graph that is otherwise as before. -/
theorem Records.of_frames {replaced : List NodeLabel} (hdistinct : (replaced.map (·.id)).Nodup)
    (hheld : ∀ l ∈ replaced, g.Holds l)
    (hframe : ∀ k, h.frame? k = if k ∈ replaced.map (·.id) then none else g.frame? k)
    (hsize : h.nodes.size = g.nodes.size) {replacement : Option NodeId}
    (hreplacement : ∀ r, replacement = some r → h.contains r = true)
    (hrelated : ∀ k, h.contains k = true → h.relatedNodes k = g.relatedNodes k ++
      if replacement = some k then replaced.flatMap fun l => l :: g.relatedNodes l.id else []) :
    g.Records ⟨rule, replaced, replacement⟩ h where
  distinct := hdistinct
  held := hheld
  lost l hl := by
    rw [contains_eq_frame?, hframe, if_pos (List.mem_map_of_mem hl)]
    rfl
  kept l hg hl := by
    have hid : l.id ∉ replaced.map (·.id) := by
      intro hmem
      obtain ⟨l', hl', hid⟩ := List.mem_map.1 hmem
      exact hl ((hheld l' hl').unique hg hid ▸ hl')
    rwa [holds_iff_frame, hframe, if_neg hid, ← holds_iff_frame]
  added l hl := by
    rw [holds_iff_frame, hframe] at hl
    split at hl
    · obtain ⟨f, hf, -⟩ := hl
      cases hf
    · exact .inl (holds_iff_frame.2 hl)
  replacement := hreplacement
  size := by
    have hne : replacement ≠ some g.nodes.size := by
      intro heq
      exact absurd (hsize ▸ lt_size_of_contains (hreplacement _ heq)) (Nat.lt_irrefl _)
    rw [if_neg hne, hsize]
    rfl
  related := hrelated

theorem contains_without {k : NodeId} (count : Nat) :
    (g.without id count).contains k = true ↔ k ≠ id ∧ g.contains k = true := by
  rw [contains_eq_frame?, contains_eq_frame?, frame?_without]
  by_cases hk : k = id <;> simp [hk]

section Pairs

variable (hc : g.Chain parent id parentNode node o) (hg : g.Sound)

include hc hg

theorem Chain.records_bypassed :
    g.Records ⟨rule, node.label :: if (g.skipped id o).readers ⟨parent, 0⟩ = [] then
      [parentNode.label] else [], none⟩ (g.bypassed parent id o) := by
  obtain ⟨hchild, hchildId⟩ := hg.holds_label hc.child_node
  obtain ⟨hparent, hparentId⟩ := hg.holds_label hc.parent_node
  have hmoved : g.SameNodes (g.moveConsumers ⟨id, 0⟩ o (g.readers ⟨id, 0⟩)) :=
    .moveConsumers g _ _ _
  have hsize : (g.skipped id o).nodes.size = g.nodes.size := by
    rw [skipped, size_without, hmoved.size]
  have hrelated : ∀ k, (g.skipped id o).contains k = true →
      (g.skipped id o).relatedNodes k = g.relatedNodes k := by
    intro k hk
    rw [skipped, relatedNodes_without, if_neg ((contains_without _).1 hk).1, hmoved.relatedNodes]
  rw [bypassed, released]
  split
  · refine .of_frames ?_ (by simp [hchild, hparent]) (fun k => ?_) ((size_without _).trans hsize)
      (by simp) fun k hk => ?_
    · simp [hchildId, hparentId, (hc.ne hg).symm]
    · rw [frame?_without, frame?_skipped]
      by_cases hp : k = parent <;> by_cases hi : k = id <;> simp [hp, hi, hchildId, hparentId]
    · obtain ⟨hne, hk⟩ := (contains_without _).1 hk
      rw [relatedNodes_without, if_neg hne, hrelated k hk]
      simp
  · refine .of_frames (by simp) (by simpa using hchild) (fun k => ?_) hsize (by simp)
      fun k hk => by simp [hrelated k hk]
    rw [frame?_skipped]
    simp [hchildId]

theorem Chain.records_merged :
    g.Records ⟨rule, if (g.reconnected ⟨parent, 0⟩ o ⟨id, 0⟩).readers ⟨parent, 0⟩ = [] then
      [parentNode.label] else [], some id⟩ (g.merged parent id parentNode.name o) := by
  obtain ⟨hparent, hparentId⟩ := hg.holds_label hc.parent_node
  have hover : g.SameNodes (g.reconnected ⟨parent, 0⟩ o ⟨id, 0⟩) :=
    (SameNodes.unlink g _ _).trans (.link _ _ _)
  have hid : (g.reconnected ⟨parent, 0⟩ o ⟨id, 0⟩).contains id = true := by
    rw [hover.contains]
    exact contains_iff.2 ⟨node, hc.child_node⟩
  rw [merged]
  split
  · refine .of_frames (by simp) (by simpa using hparent) (fun k => ?_) ?_ ?_ fun k hk => ?_
    · rw [frame?_without, superseding, frame?_setRelated, hover.frame?]
      simp [hparentId]
    · rw [size_without, superseding, setRelated, hover.size]
    · rintro r hr
      obtain rfl := Option.some.inj hr
      exact (contains_without _).2 ⟨(hc.ne hg).symm, hid⟩
    · rw [relatedNodes_without, if_neg ((contains_without _).1 hk).1, superseding,
        relatedNodes_setRelated, hover.relatedNodes, hover.relatedNodes, hover.relatedNodes]
      have hlabel : parentNode.label = ⟨parent, parentNode.name⟩ :=
        congrArg (NodeLabel.mk · _) hparentId
      by_cases hki : k = id
      · simp [hki, hlabel]
      · simp [hki, Ne.symm hki]
  · refine .of_frames (by simp) (by simp) (fun k => by simp [hover.frame?]) hover.size ?_
      fun k hk => by simp [hover.relatedNodes]
    rintro r hr
    obtain rfl := Option.some.inj hr
    exact hid

end Pairs

theorem size_rerouted (name : String) (d : Descriptor) :
    (g.rerouted id o name d).nodes.size = g.nodes.size + 1 := by
  rw [rerouted, (SameNodes.moveConsumers _ _ _ _).size, withReshape, splice_eq, size_setInput,
    size_updateConsumers, size_updateConsumers, size_setDescriptor, size_setInput, push,
    Array.size_push]

theorem Sound.records_replaced (hg : g.Sound) (hn : g.node? id = some node) (d : Descriptor)
    (name : String) : g.Records ⟨rule, [node.label], some g.nodes.size⟩
      (g.replaced id o name d
        (g.relatedNodes g.nodes.size ++ ⟨id, node.name⟩ :: g.relatedNodes id) 1) := by
  obtain ⟨hheld, hid⟩ := hg.holds_label hn
  have hne := ne_size_of_node hn
  refine ⟨by simp, by simpa using hheld, ?_, ?_, ?_, ?_, ?_, ?_⟩
  · simp [contains_eq_frame?, frame?_replaced, hid]
  · intro l hl hnot
    have hlid : l.id ≠ id := by
      intro heq
      exact hnot (by simp [hl.unique hheld (heq.trans hid.symm)])
    have hlsize := Nat.ne_of_lt (lt_size_of_contains hl.contains)
    rwa [holds_iff_frame, frame?_replaced_of_ne hlid hlsize, ← holds_iff_frame]
  · intro l hl
    by_cases hz : l.id = g.nodes.size
    · exact .inr ⟨hz, by simp [hz]⟩
    · have hlid : l.id ≠ id := by
        intro heq
        obtain ⟨f, hf, -⟩ := holds_iff_frame.1 hl
        simp [frame?_replaced, heq] at hf
      rw [holds_iff_frame, frame?_replaced_of_ne hlid hz, ← holds_iff_frame] at hl
      exact .inl hl
  · rintro r hr
    obtain rfl := Option.some.inj hr
    rw [contains_eq_frame?, frame?_replaced, if_neg hne.symm, frame?_withReshape, if_pos rfl]
    rfl
  · rw [if_pos rfl, Graph.replaced, size_without, Graph.setRelated, size_rerouted]
  · intro k hk
    have hlabel : node.label = ⟨id, node.name⟩ := congrArg (NodeLabel.mk · _) hid
    rw [Graph.replaced, relatedNodes_without, if_neg ((contains_without _).1 hk).1,
      relatedNodes_setRelated, relatedNodes_rerouted]
    by_cases hz : k = g.nodes.size
    · simp [hz, hlabel]
    · simp [hz, Ne.symm hz]

/-- Each rewrite is told by its record. -/
theorem Rewrite.records (hr : g.Rewrite rule id applied h) (hg : g.Sound) :
    g.Records applied h := by
  cases hr with
  | bypass hc => exact hc.records_bypassed hg
  | merge hc => exact hc.records_merged hg
  | replace hn => exact hg.records_replaced hn _ _

theorem Rewrite.rule_eq (hr : g.Rewrite rule id applied h) : applied.rule = rule := by
  cases hr <;> rfl

theorem Rewrite.replacement_of_isReshape (hr : g.Rewrite rule id applied h)
    (hn : g.node? id = some node) (hop : node.operation.isReshape = true) :
    applied.replacement ≠ some g.nodes.size := by
  cases hr with
  | bypass => exact Option.some_ne_none _ ∘ Eq.symm
  | merge => simpa using ne_size_of_node hn
  | replace hn' hreads =>
    exact absurd ((isReshape_iff hn).2 hop) (reorders_of_node hn' hreads).not_isReshape

theorem Rewrite.replacement_of_reorders (hr : g.Rewrite rule id applied h)
    (hn : g.node? id = some node) (hop : node.operation.reorders = true)
    (hsome : applied.replacement ≠ none) : applied.replacement = some g.nodes.size := by
  cases hr with
  | bypass => exact absurd rfl hsome
  | merge hc _ hreshape =>
    obtain rfl := Option.some.inj (hn.symm.trans hc.child_node)
    rw [hreshape] at hop
    cases hop
  | replace => rfl

end Graph

namespace Rule

variable {table : BindingTable} {rule : Rule} {rules : List Rule} {g h : Graph} {id : NodeId}
  {applied : Applied}

theorem replacement_of_replaceByReshape {name : String}
    (happly : Edit.replaceByReshape name id g = .ok applied h) : applied.replacement ≠ none := by
  rw [Edit.replaceByReshape] at happly
  obtain ⟨old, g₁, -, happly⟩ := Edit.bind_eq_ok_iff.1 happly
  cases hd : old.outputDescriptor? 0 with
  | none =>
    rw [hd] at happly
    cases happly
  | some d =>
    rw [hd] at happly
    obtain ⟨reshape, g₂, -, happly⟩ := Edit.bind_eq_ok_iff.1 happly
    obtain ⟨_, g₃, -, happly⟩ := Edit.bind_eq_ok_iff.1 happly
    obtain ⟨_, g₄, -, happly⟩ := Edit.bind_eq_ok_iff.1 happly
    obtain ⟨_, g₅, -, happly⟩ := Edit.bind_eq_ok_iff.1 happly
    obtain ⟨_, g₆, -, happly⟩ := Edit.bind_eq_ok_iff.1 happly
    cases happly
    exact Option.some_ne_none _

theorem replacement_of_bypassPair {name : String} {e : NodeId → Edit (List NodeLabel)}
    (happly : (do
      let parent ← Edit.parent id
      let replaced ← e parent
      return ⟨name, replaced, none⟩ : Edit Applied) g = .ok applied h) :
    applied.replacement = none := by
  obtain ⟨parent, g₁, -, happly⟩ := Edit.bind_eq_ok_iff.1 happly
  obtain ⟨replaced, g₂, -, happly⟩ := Edit.bind_eq_ok_iff.1 happly
  cases happly
  rfl

/-- The records of the two rules that put in reshapes are those whose replacement is new. -/
theorem creates_iff (hrule : rule ∈ standard) (hv : g.Valid table)
    (happlies : rule.applies g id = true) (happly : rule.apply id g = .ok applied h) :
    applied.creates = true ↔ applied.replacement = some g.nodes.size := by
  have hr := rewrite_of_apply hrule hv happlies happly
  obtain ⟨node, hn, hadmits, -⟩ := applies_iff.1 happlies
  have hreorders : rule ∈ standard.tail → node.operation.reorders = true :=
    fun hmem => reorders_of_admits hmem hadmits
  rw [Applied.creates, hr.rule_eq]
  simp only [standard, List.mem_cons, List.not_mem_nil, or_false] at hrule
  rcases hrule with rfl | rfl | rfl | rfl | rfl
  · exact iff_of_false (by decide) (hr.replacement_of_isReshape hn hadmits)
  · exact iff_of_false (by decide) (by simp [replacement_of_bypassPair happly])
  · exact iff_of_false (by decide) (by simp [replacement_of_bypassPair happly])
  · exact iff_of_true (by decide) (hr.replacement_of_reorders hn (hreorders (by simp [standard]))
      (replacement_of_replaceByReshape happly))
  · exact iff_of_true (by decide) (hr.replacement_of_reorders hn (hreorders (by simp [standard]))
      (replacement_of_replaceByReshape happly))

end Rule

def removedBy (applied : List Applied) : List NodeLabel := applied.flatMap (·.replaced)

def createdBy (applied : List Applied) : List (Option NodeId) :=
  (applied.filter (·.creates)).map (·.replacement)

theorem removedBy_cons (a : Applied) (rest : List Applied) :
    removedBy (a :: rest) = a.replaced ++ removedBy rest := List.flatMap_cons

theorem createdBy_cons (a : Applied) (rest : List Applied) : createdBy (a :: rest) =
    if a.creates then a.replacement :: createdBy rest else createdBy rest := by
  rw [createdBy, List.filter_cons]
  split <;> rfl

namespace Graph

variable {table : BindingTable} {rules : List Rule} {g h k s : Graph} {applied : Applied}
  {steps : List (Applied × Graph)} {l : NodeLabel} {id : NodeId}

/-- A way from one graph to another on which every step is told by its record. -/
inductive Ledger : Graph → List (Applied × Graph) → Graph → Prop where
  | nil {g : Graph} : Ledger g [] g
  | cons {g h k : Graph} {applied : Applied} {steps : List (Applied × Graph)}
      (records : g.Records applied h)
      (creates : applied.creates = true ↔ applied.replacement = some g.nodes.size)
      (rest : Ledger h steps k) : Ledger g ((applied, h) :: steps) k

theorem Valid.ledger (hv : g.Valid table) (hs : Rule.Steps rules g steps k)
    (hrules : ∀ rule ∈ rules, rule ∈ Rule.standard) : Ledger g steps k := by
  induction hs with
  | nil => exact .nil
  | cons mem applies apply _ ih =>
    have hr := Rule.rewrite_of_apply (hrules _ mem) hv applies apply
    exact .cons (hr.records hv.sound) (Rule.creates_iff (hrules _ mem) hv applies apply)
      (ih (hr.valid hv))

namespace Records

theorem size_le (hr : g.Records applied h) : g.nodes.size ≤ h.nodes.size := by
  rw [hr.size]
  exact Nat.le_add_right _ _

/-- Positions of the arena are not used again. -/
theorem gone (hr : g.Records applied h) (hid : id < g.nodes.size) (hgone : g.contains id = false) :
    h.contains id = false := by
  refine Bool.eq_false_iff.2 fun hh => ?_
  obtain ⟨l, hl, rfl⟩ := exists_holds hh
  rcases hr.added l hl with hl | ⟨hsize, -⟩
  · simp [hl.contains] at hgone
  · exact Nat.ne_of_lt hid hsize

theorem lt_size (hr : g.Records applied h) (hl : l ∈ applied.replaced) : l.id < g.nodes.size :=
  lt_size_of_contains (hr.held l hl).contains

end Records

namespace Ledger

theorem gone (hs : Ledger g steps k) (hid : id < g.nodes.size) (hgone : g.contains id = false) :
    (∀ step ∈ steps, step.2.contains id = false) ∧ k.contains id = false := by
  induction hs with
  | nil => exact ⟨by simp, hgone⟩
  | cons hr _ _ ih =>
    have hnext := hr.gone hid hgone
    obtain ⟨hsteps, hend⟩ := ih (Nat.lt_of_lt_of_le hid hr.size_le) hnext
    exact ⟨by simpa [hnext] using hsteps, hend⟩

/-- A removed node was there before. -/
theorem exists_holds_of_removed (hs : Ledger g steps k) (hl : l ∈ removedBy (steps.map (·.1))) :
    ∃ s ∈ g :: steps.map (·.2), s.Holds l := by
  induction hs with
  | nil => simp [removedBy] at hl
  | @cons g h k applied steps hr _ _ ih =>
    rw [List.map_cons, removedBy_cons, List.mem_append] at hl
    rcases hl with hl | hl
    · exact ⟨g, List.mem_cons_self, hr.held l hl⟩
    · obtain ⟨s, hmem, hholds⟩ := ih hl
      exact ⟨s, List.mem_cons_of_mem _ hmem, hholds⟩

/-- A removed node does not come back. -/
theorem contains_of_removed (hs : Ledger g steps k) (hl : l ∈ removedBy (steps.map (·.1))) :
    k.contains l.id = false := by
  induction hs with
  | nil => simp [removedBy] at hl
  | @cons g h k applied steps hr _ hrest ih =>
    rw [List.map_cons, removedBy_cons, List.mem_append] at hl
    rcases hl with hl | hl
    · exact (hrest.gone (Nat.lt_of_lt_of_le (hr.lt_size hl) hr.size_le) (hr.lost l hl)).2
    · exact ih hl

/-- A node that was there at some time and is not there in the end has been removed. -/
theorem mem_removed (hs : Ledger g steps k) (hmem : s ∈ g :: steps.map (·.2)) (hl : s.Holds l)
    (hlost : k.contains l.id = false) : l ∈ removedBy (steps.map (·.1)) := by
  induction hs generalizing s with
  | nil =>
    obtain rfl : s = _ := by simpa using hmem
    simp [hl.contains] at hlost
  | @cons g h k applied steps hr _ _ ih =>
    rw [List.map_cons, removedBy_cons, List.mem_append]
    rcases List.mem_cons.1 hmem with rfl | hmem
    · by_cases hold : l ∈ applied.replaced
      · exact .inl hold
      · exact .inr (ih List.mem_cons_self (hr.kept l hl hold) hlost)
    · exact .inr (ih hmem hl hlost)

theorem mem_removed_iff (hs : Ledger g steps k) : l ∈ removedBy (steps.map (·.1)) ↔
    (∃ s ∈ g :: steps.map (·.2), s.Holds l) ∧ k.contains l.id = false := by
  refine ⟨fun hl => ⟨hs.exists_holds_of_removed hl, hs.contains_of_removed hl⟩, ?_⟩
  rintro ⟨⟨s, hmem, hholds⟩, hlost⟩
  exact hs.mem_removed hmem hholds hlost

theorem removed_nodup (hs : Ledger g steps k) :
    ((removedBy (steps.map (·.1))).map (·.id)).Nodup := by
  induction hs with
  | nil => exact List.nodup_nil
  | @cons g h k applied steps hr _ hrest ih =>
    rw [List.map_cons, removedBy_cons, List.map_append]
    refine List.nodup_append.2 ⟨hr.distinct, ih, ?_⟩
    simp only [List.mem_map]
    rintro _ ⟨l, hl, rfl⟩ _ ⟨m, hm, rfl⟩ heq
    -- what is removed later was there later, but the place of `l` stays empty
    obtain ⟨s, hmem, hholds⟩ := hrest.exists_holds_of_removed hm
    have hlost := hr.lost l hl
    have hgone := (hrest.gone (Nat.lt_of_lt_of_le (hr.lt_size hl) hr.size_le) hlost).1
    have hnot : s.contains m.id = false := by
      rw [← heq]
      rcases List.mem_cons.1 hmem with rfl | hmem
      · exact hlost
      · obtain ⟨step, hstep, rfl⟩ := List.mem_map.1 hmem
        exact hgone step hstep
    simp [hholds.contains] at hnot

/-- New nodes are numbered on from the size of the arena. -/
theorem created_eq (hs : Ledger g steps k) : createdBy (steps.map (·.1)) =
    (List.range' g.nodes.size (createdBy (steps.map (·.1))).length).map some ∧
      k.nodes.size = g.nodes.size + (createdBy (steps.map (·.1))).length := by
  induction hs with
  | nil => exact ⟨rfl, rfl⟩
  | @cons g h k applied steps hr hcreates _ ih =>
    obtain ⟨hlist, hsize⟩ := ih
    have hnext := hr.size
    rw [List.map_cons, createdBy_cons]
    by_cases hc : applied.creates = true
    · rw [if_pos (hcreates.1 hc)] at hnext
      rw [if_pos hc, hcreates.1 hc, List.length_cons, List.range'_succ, List.map_cons, hsize, hnext]
      exact ⟨congrArg _ (by rwa [hnext] at hlist), by omega⟩
    · rw [if_neg (mt hcreates.2 hc), Nat.add_zero] at hnext
      rw [if_neg hc, ← hnext]
      exact ⟨hlist, hsize⟩

/-- The nodes that are there at some time are those of the first graph and the new ones. -/
theorem exists_contains_iff (hs : Ledger g steps k) :
    (∃ s ∈ g :: steps.map (·.2), s.contains id = true) ↔
      g.contains id = true ∨ some id ∈ createdBy (steps.map (·.1)) := by
  induction hs with
  | nil => simp [createdBy]
  | @cons g h k applied steps hr hcreates _ ih =>
    have hnew : some id ∈ createdBy (applied :: steps.map (·.1)) ↔
        (applied.creates = true ∧ applied.replacement = some id) ∨
          some id ∈ createdBy (steps.map (·.1)) := by
      rw [createdBy_cons]
      cases applied.creates <;> simp [eq_comm (a := some id)]
    rw [List.map_cons, List.map_cons, hnew]
    constructor
    · rintro ⟨s, hmem, hcontains⟩
      rcases List.mem_cons.1 hmem with rfl | hmem
      · exact .inl hcontains
      · rcases ih.1 ⟨s, hmem, hcontains⟩ with hh | hlater
        · obtain ⟨l, hl, rfl⟩ := exists_holds hh
          rcases hr.added l hl with hold | ⟨hsize, hreplacement⟩
          · exact .inl hold.contains
          · exact .inr (.inl ⟨hcreates.2 (hsize ▸ hreplacement), hreplacement⟩)
        · exact .inr (.inr hlater)
    · rintro (hg | ⟨-, hreplacement⟩ | hlater)
      · exact ⟨g, List.mem_cons_self, hg⟩
      · exact ⟨h, by simp, hr.replacement id hreplacement⟩
      · obtain ⟨s, hmem, hcontains⟩ := ih.2 (.inr hlater)
        exact ⟨s, List.mem_cons_of_mem _ hmem, hcontains⟩

/-- A new node was not there in the first graph. -/
theorem mem_created_iff (hs : Ledger g steps k) : some id ∈ createdBy (steps.map (·.1)) ↔
    g.contains id = false ∧ ∃ step ∈ steps, step.2.contains id = true := by
  have hiff : (∃ s ∈ g :: steps.map (·.2), s.contains id = true) ↔ _ := hs.exists_contains_iff
  constructor
  · intro hnew
    have hsize : g.nodes.size ≤ id := by
      rw [hs.created_eq.1] at hnew
      obtain ⟨i, hi, heq⟩ := List.mem_map.1 hnew
      obtain rfl := Option.some.inj heq
      exact (List.mem_range'_1.1 hi).1
    have hg : g.contains id = false :=
      Bool.eq_false_iff.2 fun h => Nat.not_lt.2 hsize (lt_size_of_contains h)
    obtain ⟨s, hmem, hcontains⟩ := hiff.2 (.inr hnew)
    rcases List.mem_cons.1 hmem with rfl | hmem
    · simp [hg] at hcontains
    · obtain ⟨step, hstep, rfl⟩ := List.mem_map.1 hmem
      exact ⟨hg, step, hstep, hcontains⟩
  · rintro ⟨hg, step, hstep, hcontains⟩
    have hmem := List.mem_cons_of_mem g (List.mem_map_of_mem (f := (·.2)) hstep)
    refine (hiff.1 ⟨step.2, hmem, hcontains⟩).resolve_left fun h => ?_
    simp [hg] at h

end Ledger

end Graph

/-- Optimizing a valid graph by standard rules is a way of steps from valid graph to valid
graph, which the report lists. -/
theorem Graph.Reachable.exists_steps {g : Graph} {rules : List Rule} (hg : g.Reachable)
    (hvalid : g.validate = .ok ()) (hrules : ∀ rule ∈ rules, rule ∈ Rule.standard)
    (options : OptimizerOptions) (statistics : Bool) :
    let optimized := optimize rules options statistics g
    ∃ table report steps, g.Valid table ∧ optimized.graph.Valid table ∧
      optimized.outcome = .ok report ∧ Rule.Steps rules g steps optimized.graph ∧
      report.applied = steps.map (·.1) := by
  intro optimized
  obtain ⟨table, hv⟩ := hg.sound.validate_eq_ok_iff.1 hvalid
  obtain ⟨report, p, hrun, hp, steps, hsteps, happlied, -⟩ :=
    hv.exists_run hrules options statistics
  have hend : optimized = ⟨p.graph, p.log, .ok report⟩ := optimize_of_run hrun
  rw [hend]
  exact ⟨table, report, steps, hv, hp, rfl, hsteps, happlied⟩

/-- A report accounts for every node. No two of the nodes its records take away are one; they
are, with the names they had, those of the graphs on the way that are not left in the end, and
so those of the first graph and the new ones that are not left. The new nodes are the
replacements of the two rules that put in reshapes, which number on from the size of the
arena. -/
theorem optimize_accounts {g : Graph} {rules : List Rule} (options : OptimizerOptions)
    (statistics : Bool) (hg : g.Reachable) (hvalid : g.validate = .ok ())
    (hrules : ∀ rule ∈ rules, rule ∈ Rule.standard) :
    let optimized := optimize rules options statistics g
    ∃ report steps, optimized.outcome = .ok report ∧ Rule.Steps rules g steps optimized.graph ∧
      report.applied = steps.map (·.1) ∧
      let removed := removedBy report.applied
      let created := createdBy report.applied
      (removed.map (·.id)).Nodup ∧
      (∀ l, l ∈ removed ↔ (∃ s ∈ g :: steps.map (·.2), s.Holds l) ∧
        optimized.graph.contains l.id = false) ∧
      (∀ id, id ∈ removed.map (·.id) ↔ (g.contains id = true ∨ some id ∈ created) ∧
        optimized.graph.contains id = false) ∧
      (∀ id, some id ∈ created ↔
        g.contains id = false ∧ ∃ step ∈ steps, step.2.contains id = true) ∧
      created = (List.range' g.nodes.size created.length).map some ∧
      optimized.graph.nodes.size = g.nodes.size + created.length := by
  intro optimized
  obtain ⟨table, report, steps, hv, -, hreport, hsteps, happlied⟩ :=
    hg.exists_steps hvalid hrules options statistics
  have hledger := hv.ledger hsteps hrules
  refine ⟨report, steps, hreport, hsteps, happlied, ?_⟩
  rw [happlied]
  refine ⟨hledger.removed_nodup, fun l => hledger.mem_removed_iff, fun id => ?_,
    fun id => hledger.mem_created_iff, hledger.created_eq⟩
  rw [← hledger.exists_contains_iff, List.mem_map]
  constructor
  · rintro ⟨l, hl, rfl⟩
    obtain ⟨⟨s, hmem, hholds⟩, hlost⟩ := hledger.mem_removed_iff.1 hl
    exact ⟨⟨s, hmem, hholds.contains⟩, hlost⟩
  · rintro ⟨⟨s, hmem, hcontains⟩, hlost⟩
    obtain ⟨l, hl, rfl⟩ := exists_holds hcontains
    exact ⟨l, hledger.mem_removed hmem hl hlost, rfl⟩

theorem optimize_accounts_folding :
    let optimized := optimize Rule.standard ⟨16, true⟩ false folding
    let new : NodeLabel := ⟨9, "merged-s-into-reshape"⟩
    folding.Reachable ∧ folding.validate = .ok () ∧
      ∃ report steps, optimized.outcome = .ok report ∧
        Rule.Steps Rule.standard folding steps optimized.graph ∧
        removedBy report.applied = [⟨2, "u"⟩, ⟨6, "s"⟩, ⟨5, "r"⟩, new] ∧
        createdBy report.applied = [some 9] ∧
        (∃ s ∈ folding :: steps.map (·.2), s.Holds new) ∧
        optimized.graph.contains 9 = false := by
  intro optimized new
  have hg : folding.Reachable := .changed .empty _
  have hvalid : folding.validate = .ok () := by decide +kernel
  have hlists : optimized.outcome.map (fun report => (removedBy report.applied,
      createdBy report.applied)) = .ok ([⟨2, "u"⟩, ⟨6, "s"⟩, ⟨5, "r"⟩, new], [some 9]) := by
    decide +kernel
  obtain ⟨report, steps, hreport, hsteps, -, -, hremoved, -⟩ :=
    optimize_accounts ⟨16, true⟩ false hg hvalid
      (fun _ hr => hr : ∀ rule ∈ Rule.standard, rule ∈ Rule.standard)
  rw [hreport, Except.map] at hlists
  obtain ⟨hold, hnew⟩ := Prod.mk.inj (Except.ok.inj hlists)
  obtain ⟨hholds, hlost⟩ := (hremoved new).1 (by simp [hold])
  exact ⟨hg, hvalid, report, steps, hreport, hsteps, hold, hnew, hholds, hlost⟩

end LayerGraph
