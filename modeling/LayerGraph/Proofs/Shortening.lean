import LayerGraph.Proofs.Rules
import Mathlib.Data.Set.Card

/-!
# What a rewrite makes smaller

A rewrite takes away a permute or a transpose, or it lets readers go past a reshape of a
reshape. In the second case the nodes that are left read what they read, or something that
comes earlier on the way to it.
-/

set_option autoImplicit false

namespace LayerGraph

open Relation

def Operation.reorders (operation : Operation) : Bool :=
  operation.isPermute || operation.isTranspose

theorem Operation.reorders_of_reading {operation : Operation} {q : Permutation}
    (h : operation.reading? = some q) : operation.reorders = true := by
  rcases kind_of_reading h with hk | hk <;> simp [reorders, isPermute, isTranspose, hk]

namespace Graph

variable {table : BindingTable} {g h : Graph} {id parent child a b : NodeId}
  {node parentNode childNode : Node} {o : OutputSlot}

/-- The number of permutes and transposes. -/
def reorderings (g : Graph) : Nat := g.liveNodes.countP fun node => node.operation.reorders

def Reorders (g : Graph) (k : NodeId) : Prop :=
  ∃ f, g.frame? k = some f ∧ f.operation.reorders = true

theorem reorders_of_node {q : Permutation} (hn : g.node? id = some node)
    (hop : node.operation.reading? = some q) : g.Reorders id :=
  ⟨node.frame, frame?_eq_some_iff.2 ⟨node, hn, rfl⟩, Operation.reorders_of_reading hop⟩

theorem lt_size_of_frame? {k : NodeId} {f : NodeFrame} (hf : g.frame? k = some f) :
    k < g.nodes.size :=
  lt_size_of_contains (by rw [contains_eq_frame?, hf]; rfl)

theorem finite_reorders (g : Graph) : {k | g.Reorders k}.Finite :=
  (Set.finite_lt_nat g.nodes.size).subset fun _ ⟨_, hf, _⟩ => lt_size_of_frame? hf

theorem reorderings_eq (g : Graph) : g.reorderings = {k | g.Reorders k}.ncard := by
  have hany : ∀ k, ((g.node? k).any fun node => node.operation.reorders) = true ↔ g.Reorders k := by
    intro k
    simp only [Option.any_eq_true, Reorders, frame?_eq_some_iff]
    constructor
    · rintro ⟨node, hn, hop⟩
      exact ⟨node.frame, ⟨node, hn, rfl⟩, hop⟩
    · rintro ⟨_, ⟨node, hn, rfl⟩, hop⟩
      exact ⟨node, hn, hop⟩
  have hset : {k | g.Reorders k} = ↑((List.range g.nodes.size).filter fun k =>
      (g.node? k).any fun node => node.operation.reorders).toFinset := by
    ext k
    simp only [Set.mem_ofPred_eq, List.coe_toFinset, List.mem_filter, List.mem_range, hany]
    exact ⟨fun hk => ⟨lt_size_of_frame? hk.choose_spec.1, hk⟩, And.right⟩
  rw [hset, Set.ncard_coe_finset, List.toFinset_card_of_nodup (List.nodup_range.filter _),
    ← List.countP_eq_length_filter, reorderings, liveNodes_eq, List.countP_filterMap]
  congr 1
  funext k
  cases g.node? k <;> rfl

section Fewer

variable (hsub : ∀ k f, h.frame? k = some f → f.operation.reorders = true → g.frame? k = some f)

include hsub

theorem reorders_subset : {k | h.Reorders k} ⊆ {k | g.Reorders k} :=
  fun k ⟨f, hf, hop⟩ => ⟨f, hsub k f hf hop, hop⟩

theorem reorderings_le : h.reorderings ≤ g.reorderings := by
  rw [reorderings_eq, reorderings_eq]
  exact Set.ncard_le_ncard (reorders_subset hsub) g.finite_reorders

theorem reorderings_lt (hid : g.Reorders id) (hgone : h.frame? id = none) :
    h.reorderings < g.reorderings := by
  rw [reorderings_eq, reorderings_eq]
  refine Set.ncard_lt_ncard ⟨reorders_subset hsub, fun hback => ?_⟩ g.finite_reorders
  obtain ⟨f, hf, -⟩ : h.Reorders id := hback hid
  rw [hgone] at hf
  cases hf

end Fewer

/-- Nodes of `h` are nodes of `g`, and each slot reads what it read, but `o` stands in place
of `child` where that was read, and where `child` itself reads. -/
structure Shortens (g h : Graph) (child : NodeId) (o : OutputSlot) : Prop where
  frame : ∀ k f, h.frame? k = some f → g.frame? k = some f
  source : ∀ t q, h.source? t = some q → t ≠ ⟨child, 0⟩ ∧ g.source? t = some q ∨
    q = o ∧ (t = ⟨child, 0⟩ ∨ g.source? t = some ⟨child, 0⟩)

namespace Shortens

theorem without (hs : g.Shortens h child o) (k : NodeId) (count : Nat) :
    g.Shortens (h.without k count) child o where
  frame j f hf := by
    rw [frame?_without] at hf
    split at hf
    · cases hf
    · exact hs.frame j f hf
  source t q hq := by
    rw [source?_without] at hq
    split at hq
    · cases hq
    · exact hs.source t q hq

theorem superseding (hs : g.Shortens h child o) (k old : NodeId) (name : String) :
    g.Shortens (h.superseding k old name) child o := ⟨hs.frame, hs.source⟩

theorem contains (hs : g.Shortens h child o) {k : NodeId} (hk : h.contains k = true) :
    g.contains k = true := by
  rw [contains_eq_frame?] at hk ⊢
  obtain ⟨f, hf⟩ := Option.isSome_iff_exists.1 hk
  rw [hs.frame k f hf]
  rfl

theorem reorderings_le (hs : g.Shortens h child o) : h.reorderings ≤ g.reorderings :=
  Graph.reorderings_le fun k f hf _ => hs.frame k f hf

/-- Edges are paths of the graph before. -/
theorem edge (hs : g.Shortens h child o) {p : OutputSlot}
    (hp : g.source? ⟨child, 0⟩ = some p) (ho : g.source? ⟨p.node, 0⟩ = some o) (he : h.Edge a b) :
    TransGen g.Edge a b := by
  obtain ⟨i, q, hq, rfl⟩ := he
  have hover : TransGen g.Edge o.node child := .tail (.single (.of_source? ho)) (.of_source? hp)
  rcases hs.source _ _ hq with ⟨-, hq⟩ | ⟨rfl, hb | hb⟩
  · exact .single (.of_source? hq)
  · cases hb
    exact hover
  · exact hover.tail (.of_source? hb)

end Shortens

theorem Sound.shortens_bypassed (hg : g.Sound) (parent child : NodeId) (o : OutputSlot) :
    g.Shortens (g.bypassed parent child o) child o := by
  have hskipped : g.Shortens (g.skipped child o) child o := by
    refine ⟨fun k f hf => ?_, fun t q hq => ?_⟩
    · rw [frame?_skipped] at hf
      split at hf
      · cases hf
      · exact hf
    · rw [hg.source?_skipped] at hq
      split_ifs at hq with hnode hread
      · exact .inr ⟨(Option.some.inj hq).symm, .inr hread⟩
      · exact .inl ⟨fun ht => hnode (congrArg InputSlot.node ht), hq⟩
  rw [bypassed, released]
  split
  · exact hskipped.without parent 1
  · exact hskipped

theorem Chain.shortens_merged (hc : g.Chain parent child parentNode childNode o)
    (name : String) : g.Shortens (g.merged parent child name o) child o := by
  have hover : g.Shortens (g.reconnected ⟨parent, 0⟩ o ⟨child, 0⟩) child o := by
    refine ⟨fun k f hf => by rwa [frame?_reconnected] at hf, fun t q hq => ?_⟩
    rw [source?_reconnected hc.child_source] at hq
    split_ifs at hq with ht
    · exact .inr ⟨(Option.some.inj hq).symm, .inl ht⟩
    · exact .inl ⟨ht, hq⟩
  rw [merged]
  split
  · exact (hover.superseding child parent name).without parent 1
  · exact hover

theorem frame?_bypassed_child : (g.bypassed parent child o).frame? child = none := by
  rw [bypassed, released]
  split
  · rw [frame?_without, frame?_skipped, if_pos rfl, ite_self]
  · rw [frame?_skipped, if_pos rfl]

def IsReshape (g : Graph) (k : NodeId) : Prop :=
  ∃ f, g.frame? k = some f ∧ f.operation.isReshape = true

theorem isReshape_iff (hn : g.node? id = some node) :
    g.IsReshape id ↔ node.operation.isReshape = true := by
  have hframe := frame?_eq_some_iff.2 ⟨node, hn, rfl⟩
  constructor
  · rintro ⟨f, hf, hop⟩
    rw [← Option.some.inj (hframe.symm.trans hf)] at hop
    exact hop
  · intro hop
    exact ⟨node.frame, hframe, hop⟩

theorem isReshape_of_node {target : Shape} (hn : g.node? id = some node)
    (hop : node.operation = .reshape target) : g.IsReshape id := by
  rw [isReshape_iff hn, hop]
  rfl

theorem Reorders.not_isReshape (hr : g.Reorders id) : ¬ g.IsReshape id := by
  rintro ⟨f, hf, hop⟩
  obtain ⟨f', hf', hreorders⟩ := hr
  obtain rfl := Option.some.inj (hf.symm.trans hf')
  cases hk : f.operation <;> simp_all [Operation.reorders, Operation.isReshape,
    Operation.isPermute, Operation.isTranspose, Operation.kind]

/-- The reshape `b` reads the reshape `a`. -/
structure Stacked (g : Graph) (a b : NodeId) : Prop where
  upper : g.IsReshape a
  lower : g.IsReshape b
  reads : ∃ i, g.source? ⟨b, 0⟩ = some ⟨a, i⟩

theorem Stacked.edge (h : g.Stacked a b) : g.Edge a b := by
  obtain ⟨i, hi⟩ := h.reads
  exact .of_source? hi

/-- A reshape that reads a reshape did so before, or it now reads what a reshape on the way
to it read. -/
theorem Shortens.stacked (hs : g.Shortens h child o) (hchild : g.Stacked parent child)
    (ho : g.source? ⟨parent, 0⟩ = some o) (hab : h.Stacked a b) :
    b ≠ child ∧ g.Stacked a b ∨ g.Stacked a parent ∧ TransGen g.Stacked parent b := by
  have hold : ∀ k, h.IsReshape k → g.IsReshape k := fun k ⟨f, hf, hop⟩ => ⟨f, hs.frame k f hf, hop⟩
  obtain ⟨i, hi⟩ := hab.reads
  rcases hs.source _ _ hi with ⟨hne, hi⟩ | ⟨rfl, hb⟩
  · exact .inl ⟨by rintro rfl; exact hne rfl, hold a hab.upper, hold b hab.lower, i, hi⟩
  · refine .inr ⟨⟨hold a hab.upper, hchild.upper, i, ho⟩, ?_⟩
    rcases hb with hb | hb
    · cases hb
      exact .single hchild
    · exact .tail (.single hchild) ⟨hchild.lower, hold b hab.lower, 0, hb⟩

/-- A rewrite takes away the permute or transpose it is at, or it is at a reshape that reads
a reshape. -/
theorem Rewrite.progress {rule : String} {applied : Applied} (hr : g.Rewrite rule id applied h)
    (hg : g.Sound) : g.Reorders id ∧ h.reorderings < g.reorderings ∨
      ∃ parent o, g.Stacked parent id ∧ g.source? ⟨parent, 0⟩ = some o ∧ g.Shortens h id o := by
  cases hr with
  | @bypass parent parentNode node o hc hu hd =>
    have hs := hg.shortens_bypassed parent id o
    generalize hfirst : parentNode.operation = first, hsecond : node.operation = second at hu
    cases hu with
    | reshapes inner target =>
      exact .inr ⟨parent, o, ⟨isReshape_of_node hc.parent_node hfirst,
        isReshape_of_node hc.child_node hsecond, 0, hc.child_source⟩, hc.parent_source, hs⟩
    | readings hp hq hcancel =>
      subst hsecond
      have hid := reorders_of_node hc.child_node hq
      exact .inl ⟨hid, reorderings_lt (fun k f hf _ => hs.frame k f hf) hid frame?_bypassed_child⟩
  | @merge parent parentNode node o inner target hc hparent hchild hd =>
    exact .inr ⟨parent, o, ⟨isReshape_of_node hc.parent_node hparent,
      isReshape_of_node hc.child_node hchild, 0, hc.child_source⟩, hc.parent_source,
      hc.shortens_merged parentNode.name⟩
  | @replace node o a d q hn hop ho ha hd hlayout =>
    have hid := reorders_of_node hn hop
    refine .inl ⟨hid, reorderings_lt (fun k f hf hreorders => ?_) hid ?_⟩
    · -- the fresh node is a reshape, every other one was there
      rw [frame?_replaced, frame?_withReshape] at hf
      split_ifs at hf with hid hz
      · cases hf
        cases hreorders
      · exact hf
    · rw [frame?_replaced, if_pos rfl]

end Graph

end LayerGraph
