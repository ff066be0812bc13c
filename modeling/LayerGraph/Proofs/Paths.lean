import LayerGraph.Proofs.Wiring

/-!
# Paths and cycles

An edge leads from the node that owns an output to a node that reads it. New edges that
all leave one node close no cycle as long as none of their targets leads back to it, and
the search along successors finds exactly the nodes that a path leads to.
-/

set_option autoImplicit false

namespace LayerGraph

open Relation

section Relations

variable {α : Type} {R R' : α → α → Prop} {a : α} {B : α → Prop}

/-- After the last use of a new edge a path is an old one. -/
theorem path_after_new_edge (hR : ∀ x y, R' x y → R x y ∨ x = a ∧ B y) {x y : α}
    (h : ReflTransGen R' x y) : ReflTransGen R x y ∨ ∃ b, B b ∧ ReflTransGen R b y := by
  induction h with
  | refl => exact .inl .refl
  | tail _ hstep ih =>
    rcases hR _ _ hstep with hold | ⟨-, hB⟩
    · rcases ih with ih | ⟨b, hb, ih⟩
      · exact .inl (ih.tail hold)
      · exact .inr ⟨b, hb, ih.tail hold⟩
    · exact .inr ⟨_, hB, .refl⟩

/-- A path through new edges comes by the node that they leave. -/
theorem path_through_new_edge (hR : ∀ x y, R' x y → R x y ∨ x = a ∧ B y) {x y : α}
    (h : TransGen R' x y) :
    TransGen R x y ∨ ReflTransGen R' x a ∧ ∃ b, B b ∧ ReflTransGen R b y := by
  induction h with
  | single hstep =>
    rcases hR _ _ hstep with hold | ⟨rfl, hB⟩
    · exact .inl (.single hold)
    · exact .inr ⟨.refl, _, hB, .refl⟩
  | tail hpath hstep ih =>
    rcases hR _ _ hstep with hold | ⟨rfl, hB⟩
    · rcases ih with ih | ⟨hxa, b, hb, ih⟩
      · exact .inl (ih.tail hold)
      · exact .inr ⟨hxa, b, hb, ih.tail hold⟩
    · exact .inr ⟨hpath.to_reflTransGen, _, hB, .refl⟩

theorem no_cycle_with_new_edges (hR : ∀ x y, R' x y → R x y ∨ x = a ∧ B y)
    (hac : ∀ x, ¬ TransGen R x x) (hB : ∀ b, B b → ¬ ReflTransGen R b a) (x : α) :
    ¬ TransGen R' x x := by
  intro h
  rcases path_through_new_edge hR h with hold | ⟨hxa, b, hb, hbx⟩
  · exact hac x hold
  · rcases path_after_new_edge hR hxa with hxa | ⟨c, hc, hca⟩
    · exact hB b hb (hbx.trans hxa)
    · exact hB c hc hca

end Relations

namespace Graph

def Edge (g : Graph) (a b : NodeId) : Prop :=
  ∃ i o, g.source? ⟨b, i⟩ = some o ∧ o.node = a

def Acyclic (g : Graph) : Prop := ∀ id, ¬ TransGen g.Edge id id

/-- Both ends of every edge know it, once. -/
structure Linked (g : Graph) : Prop where
  source_iff : ∀ s o, g.source? s = some o ↔ s ∈ g.readers o
  readers_nodup : ∀ o, (g.readers o).Nodup

theorem Edge.of_source? {g : Graph} {s : InputSlot} {o : OutputSlot} (h : g.source? s = some o) :
    g.Edge o.node s.node := ⟨s.index, o, h, rfl⟩

theorem acyclic_of_edge_imp {g h : Graph} (hac : g.Acyclic)
    (he : ∀ a b, h.Edge a b → g.Edge a b) : h.Acyclic :=
  fun id hid => hac id (TransGen.mono he _ _ hid)

theorem Acyclic.not_edge_self {g : Graph} (hac : g.Acyclic) (id : NodeId) : ¬ g.Edge id id :=
  fun h => hac id (.single h)

section Search

variable {g : Graph}

theorem mem_liveNodes {node : Node} : node ∈ g.liveNodes ↔ ∃ id, g.node? id = some node := by
  simp only [liveNodes, node?, List.mem_filterMap, id]
  constructor
  · rintro ⟨_, hm, rfl⟩
    obtain ⟨i, hi⟩ := List.mem_iff_getElem?.1 hm
    exact ⟨i, by rw [← Array.getElem?_toList, hi]; rfl⟩
  · rintro ⟨i, hi⟩
    have hi := Option.join_eq_some_iff.1 hi
    rw [← Array.getElem?_toList] at hi
    exact ⟨_, List.mem_iff_getElem?.2 ⟨i, hi⟩, rfl⟩

theorem mem_successors_iff_readers {a b : NodeId} :
    b ∈ g.successors a ↔ ∃ i, ∃ s ∈ g.readers ⟨a, i⟩, s.node = b := by
  cases hn : g.node? a with
  | none => simp [successors, hn, readers_of_hole (o := ⟨a, _⟩) hn]
  | some node =>
    simp only [successors, hn, Node.successors, List.mem_flatMap, List.mem_map,
      readers_of_node hn, Node.consumers]
    constructor
    · rintro ⟨out, hout, s, hs, rfl⟩
      obtain ⟨i, hi⟩ := List.mem_iff_getElem?.1 hout
      exact ⟨i, s, by simpa [hi] using hs, rfl⟩
    · rintro ⟨i, s, hs, rfl⟩
      cases hi : node.outputs[i]? with
      | none => simp [hi] at hs
      | some out => exact ⟨out, List.mem_of_getElem? hi, s, by simpa [hi] using hs, rfl⟩

theorem Linked.mem_successors_iff (hl : g.Linked) {a b : NodeId} :
    b ∈ g.successors a ↔ g.Edge a b := by
  rw [mem_successors_iff_readers]
  constructor
  · rintro ⟨i, s, hs, rfl⟩
    exact .of_source? ((hl.source_iff s ⟨a, i⟩).2 hs)
  · rintro ⟨i, o, ho, rfl⟩
    exact ⟨o.index, ⟨b, i⟩, (hl.source_iff _ _).1 ho, rfl⟩

/-- Edges that leave the listed nodes outside `visited`. -/
def openEdges (nodes : List Node) (visited : List NodeId) : Nat :=
  ((nodes.filter fun node => !visited.contains node.id).flatMap
    fun node => node.successors).length

theorem openEdges_visit_le (nodes : List Node) (visited : List NodeId) (current : NodeId) :
    openEdges nodes (current :: visited) ≤ openEdges nodes visited := by
  induction nodes with
  | nil => simp [openEdges]
  | cons n rest ih =>
    simp only [openEdges] at ih ⊢
    by_cases hv : n.id ∈ visited
    · simpa [hv] using ih
    · by_cases hc : n.id = current
      · simp only [hc] at hv
        simp [hv, hc] at ih ⊢
        omega
      · simpa [hv, hc] using ih

/-- The edges of a node are open no more once it is visited. -/
theorem openEdges_visit {nodes : List Node} {visited : List NodeId} {node : Node}
    (hm : node ∈ nodes) (hv : node.id ∉ visited) :
    openEdges nodes (node.id :: visited) + node.successors.length ≤ openEdges nodes visited := by
  induction nodes with
  | nil => simp at hm
  | cons n rest ih =>
    rcases List.mem_cons.1 hm with rfl | hm
    · have hle := openEdges_visit_le rest visited node.id
      simp only [openEdges] at hle ⊢
      simp [hv] at hle ⊢
      omega
    · have ih := ih hm
      simp only [openEdges] at ih ⊢
      by_cases hn : n.id ∈ visited
      · simpa [hn] using ih
      · by_cases hc : n.id = node.id
        · simp [hc, hv] at ih ⊢
          omega
        · simp [hn, hc] at ih ⊢
          omega

theorem reachesFrom_sound {target : NodeId} {steps : Nat} {visited stack : List NodeId}
    (h : g.reachesFrom target steps visited stack = true) :
    ∃ x ∈ stack, ReflTransGen (fun a b => b ∈ g.successors a) x target := by
  induction steps generalizing visited stack with
  | zero => simp [reachesFrom] at h
  | succ steps ih =>
    cases stack with
    | nil => simp [reachesFrom] at h
    | cons current stack =>
      rw [reachesFrom] at h
      split at h
      · rename_i heq
        exact ⟨current, by simp, heq ▸ .refl⟩
      · split at h
        · obtain ⟨x, hx, hp⟩ := ih h
          exact ⟨x, by simp [hx], hp⟩
        · obtain ⟨x, hx, hp⟩ := ih h
          rcases List.mem_append.1 hx with hs | hs
          · exact ⟨current, by simp, .head hs hp⟩
          · exact ⟨x, by simp [hs], hp⟩

/-- What the search keeps: no visited node is the target, and the successors of each are
visited or on the stack. -/
def Searched (g : Graph) (target : NodeId) (visited stack : List NodeId) : Prop :=
  ∀ v ∈ visited, v ≠ target ∧ ∀ w ∈ g.successors v, w ∈ visited ∨ w ∈ stack

namespace Searched

variable {target current x : NodeId} {visited stack : List NodeId}

theorem skip (h : g.Searched target visited (current :: stack)) (hv : current ∈ visited) :
    g.Searched target visited stack := by
  intro v hm
  refine ⟨(h v hm).1, fun w hw => ?_⟩
  rcases (h v hm).2 w hw with hw | hw
  · exact .inl hw
  · rcases List.mem_cons.1 hw with rfl | hw
    · exact .inl hv
    · exact .inr hw

theorem visit (h : g.Searched target visited (current :: stack)) (hne : current ≠ target) :
    g.Searched target (current :: visited) (g.successors current ++ stack) := by
  intro v hm
  rcases List.mem_cons.1 hm with rfl | hm
  · exact ⟨hne, fun w hw => .inr (List.mem_append_left _ hw)⟩
  · refine ⟨(h v hm).1, fun w hw => ?_⟩
    rcases (h v hm).2 w hw with hw | hw
    · exact .inl (List.mem_cons_of_mem _ hw)
    · rcases List.mem_cons.1 hw with rfl | hw
      · exact .inl List.mem_cons_self
      · exact .inr (List.mem_append_right _ hw)

/-- With nothing on the stack the visited nodes are closed under successors. -/
theorem not_path (h : g.Searched target visited []) (hx : x ∈ visited) :
    ¬ ReflTransGen (fun a b => b ∈ g.successors a) x target := by
  intro hp
  induction hp using ReflTransGen.head_induction_on with
  | refl => exact (h target hx).1 rfl
  | head hstep _ ih => exact ih (by simpa using (h _ hx).2 _ hstep)

end Searched

theorem openEdges_successors (hid : ∀ id node, g.node? id = some node → node.id = id)
    {visited : List NodeId} {current : NodeId} (hv : current ∉ visited) :
    openEdges g.liveNodes (current :: visited) + (g.successors current).length ≤
      openEdges g.liveNodes visited := by
  cases hn : g.node? current with
  | none => simpa [successors, hn] using openEdges_visit_le g.liveNodes visited current
  | some node =>
    have hcur := hid current node hn
    have hvisit := openEdges_visit (mem_liveNodes.2 ⟨current, hn⟩) (hcur.symm ▸ hv)
    rw [hcur] at hvisit
    simpa [successors, hn] using hvisit

/-- A search that has a step left for every node on the stack and every edge still open
misses nothing. -/
theorem reachesFrom_complete (hid : ∀ id node, g.node? id = some node → node.id = id)
    {target : NodeId} {steps : Nat} {visited stack : List NodeId}
    (hsteps : stack.length + openEdges g.liveNodes visited ≤ steps)
    (hsearched : g.Searched target visited stack)
    (h : g.reachesFrom target steps visited stack = false) {x : NodeId}
    (hx : x ∈ visited ∨ x ∈ stack) :
    ¬ ReflTransGen (fun a b => b ∈ g.successors a) x target := by
  induction steps generalizing visited stack with
  | zero =>
    obtain rfl : stack = [] := List.eq_nil_of_length_eq_zero (by omega)
    exact hsearched.not_path (by simpa using hx)
  | succ steps ih =>
    cases stack with
    | nil => exact hsearched.not_path (by simpa using hx)
    | cons current stack =>
      rw [List.length_cons] at hsteps
      rw [List.mem_cons] at hx
      rw [reachesFrom] at h
      split at h
      · cases h
      · rename_i hne
        split at h
        · rename_i hv
          have hv : current ∈ visited := by simpa using hv
          refine ih (by omega) (hsearched.skip hv) h ?_
          rcases hx with hx | rfl | hx
          · exact .inl hx
          · exact .inl hv
          · exact .inr hx
        · rename_i hv
          have hopen := openEdges_successors hid (by simpa using hv)
          refine ih (by rw [List.length_append]; omega) (hsearched.visit hne) h ?_
          rcases hx with hx | rfl | hx
          · exact .inl (List.mem_cons_of_mem _ hx)
          · exact .inl List.mem_cons_self
          · exact .inr (List.mem_append_right _ hx)

/-- The search finds a node exactly when a path leads there. -/
theorem Linked.reaches_iff (hl : g.Linked)
    (hid : ∀ id node, g.node? id = some node → node.id = id) {a b : NodeId} :
    g.reaches a b = true ↔ ReflTransGen g.Edge a b := by
  have hedge : (fun a b => b ∈ g.successors a) = g.Edge := by
    funext a b
    exact propext hl.mem_successors_iff
  constructor
  · intro h
    obtain ⟨x, hx, hp⟩ := reachesFrom_sound h
    rw [hedge] at hp
    obtain rfl := List.mem_singleton.1 hx
    exact hp
  · intro hp
    by_contra hf
    rw [reaches, Bool.not_eq_true] at hf
    refine reachesFrom_complete hid ?_ (by simp [Searched]) hf
      (.inr (List.mem_singleton.2 rfl)) (hedge ▸ hp)
    simp [openEdges, edgeCount]
    omega

end Search

end Graph

end LayerGraph
