import LayerGraph.Graph.Counted
import LayerGraph.Proofs.Faults
import LayerGraph.Proofs.ReadyOrder

/-!
# The schedule follows the ready order

The counter of a node holds the connected inputs whose producers are not listed yet and,
while the edges of the node listed last are being closed, those among them still to come.
The ready nodes are those whose counter has come down to zero. So the walk lists the
earliest ready node each time, and no counter is lowered below zero.
-/

set_option autoImplicit false

namespace LayerGraph

open Relation

namespace Graph

variable {g : Graph}

section Counting

variable {α β : Type}

theorem flatMap_eq_range (l : List α) (f : α → List β) :
    l.flatMap f = (List.range l.length).flatMap fun j =>
      match l[j]? with
      | some x => f x
      | none => [] := by
  induction l with
  | nil => rfl
  | cons x rest ih =>
    rw [List.length_cons, List.range_succ_eq_map, List.flatMap_cons, List.flatMap_cons,
      List.flatMap_map, ih]
    simp

theorem filterMap_eq_range (l : List α) (f : α → Option β) :
    l.filterMap f = (List.range l.length).filterMap fun j => (l[j]?).bind f := by
  induction l with
  | nil => rfl
  | cons x rest ih =>
    rw [List.length_cons, List.range_succ_eq_map, List.filterMap_cons, List.filterMap_cons,
      List.filterMap_map, ih]
    simp

end Counting

def slotsFed (g : Graph) (k : NodeId) (outputs : Nat) : List InputSlot :=
  (List.range outputs).flatMap fun j => g.readers ⟨k, j⟩

theorem successors_eq_slotsFed {k : NodeId} {node : Node} (hn : g.node? k = some node) :
    g.successors k = (g.slotsFed k node.outputs.length).map (·.node) := by
  rw [successors, hn]
  simp only [Node.successors, slotsFed, List.map_flatMap]
  rw [flatMap_eq_range]
  congr 1
  funext j
  rw [readers_of_node hn, Node.consumers]
  cases node.outputs[j]? <;> rfl

theorem Linked.nodup_slotsFed (hl : g.Linked) (k : NodeId) (outputs : Nat) :
    (g.slotsFed k outputs).Nodup := by
  rw [slotsFed, List.nodup_flatMap]
  refine ⟨fun j _ => hl.readers_nodup _, ?_⟩
  refine List.Pairwise.imp ?_ (List.pairwise_lt_range)
  intro i j hij s hi hj
  exact Nat.ne_of_lt hij (congrArg OutputSlot.index (hl.readers_disjoint hi hj))

theorem Linked.mem_slotsFed (hl : g.Linked) {k : NodeId} {node : Node}
    (hn : g.node? k = some node) {s : InputSlot} :
    s ∈ g.slotsFed k node.outputs.length ↔ (g.source? s).map (·.node) = some k := by
  simp only [slotsFed, List.mem_flatMap, List.mem_range, Option.map_eq_some_iff]
  constructor
  · rintro ⟨j, -, hj⟩
    exact ⟨⟨k, j⟩, (hl.source_iff s _).2 hj, rfl⟩
  · rintro ⟨o, ho, rfl⟩
    have hm := (hl.source_iff s o).1 ho
    obtain ⟨node', hn', hlt⟩ := hasOutput_of_mem_readers hm
    obtain rfl := Option.some.inj (hn.symm.trans hn')
    exact ⟨o.index, hlt, hm⟩

theorem producers_of_node {id : NodeId} {node : Node} (hn : g.node? id = some node) :
    g.producers id = node.inputs.filterMap fun producer => producer.map (·.node) := by
  simp [producers, hn]

/-- The edges between two nodes are as many seen from either end. -/
theorem Sound.count_successors (hg : g.Sound) {k id : NodeId} {node : Node}
    (hk : g.node? k = some node) : (g.successors k).count id = (g.producers id).count k := by
  cases hid : g.node? id with
  | none =>
    have hout : id ∉ g.successors k := fun hm => by
      have := (hg.edge_live (hg.linked.mem_successors_iff.1 hm)).2
      simp [contains, hid] at this
    simp [List.count_eq_zero_of_not_mem hout, producers, hid]
  | some consumer =>
    have hslots : (g.slotsFed k node.outputs.length).filter (fun s => s.node == id) |>.Perm
        (((List.range consumer.inputs.length).filter fun i =>
          (g.source? ⟨id, i⟩).map (·.node) == some k).map (InputSlot.mk id)) := by
      rw [List.perm_ext_iff_of_nodup ((hg.linked.nodup_slotsFed k _).filter _)
        ((List.nodup_range.filter _).map fun i j h => congrArg InputSlot.index h)]
      rintro ⟨n, i⟩
      simp only [List.mem_filter, hg.linked.mem_slotsFed hk, beq_iff_eq, List.mem_map,
        List.mem_range]
      constructor
      · rintro ⟨hs, rfl⟩
        obtain ⟨o, ho, -⟩ := Option.map_eq_some_iff.1 hs
        obtain ⟨node', hn', hlt⟩ := hasInput_of_source? ho
        obtain rfl := Option.some.inj (hid.symm.trans hn')
        exact ⟨i, ⟨hlt, hs⟩, rfl⟩
      · rintro ⟨j, ⟨-, hs⟩, heq⟩
        obtain ⟨rfl, rfl⟩ := InputSlot.mk.inj heq
        exact ⟨hs, rfl⟩
    have hlen := hslots.length_eq
    rw [List.length_map, ← List.countP_eq_length_filter, ← List.countP_eq_length_filter] at hlen
    rw [successors_eq_slotsFed hk, List.count, List.countP_map, producers_of_node hid,
      filterMap_eq_range, List.count_filterMap]
    refine Eq.trans hlen (List.countP_congr fun i _ => ?_)
    simp only [source?_of_node hid, Node.input?]
    cases consumer.inputs[i]? with
    | none => rfl
    | some p => cases p <;> rfl

def openInputs (g : Graph) (listed : List NodeId) (id : NodeId) : Nat :=
  (g.producers id).countP fun p => decide (p ∉ listed)

theorem openInputs_eq_zero_iff {listed : List NodeId} {id : NodeId} :
    g.openInputs listed id = 0 ↔ ∀ p ∈ g.producers id, p ∈ listed := by
  simp [openInputs, List.countP_eq_zero]

theorem openInputs_nil {id : NodeId} {node : Node} (hn : g.node? id = some node) :
    g.openInputs [] id = connectedInputs node := by
  rw [openInputs, producers_of_node hn, connectedInputs, List.countP_filterMap]
  congr 1
  funext p
  cases p <;> rfl

/-- Listing a node closes its edges. -/
theorem openInputs_snoc {listed : List NodeId} {k : NodeId} (hk : k ∉ listed) (id : NodeId) :
    g.openInputs listed id = g.openInputs (listed ++ [k]) id + (g.producers id).count k := by
  simp only [openInputs]
  induction g.producers id with
  | nil => rfl
  | cons p rest ih =>
    simp only [List.countP_cons, List.count_cons, ih]
    by_cases hpk : p = k
    · simp [hpk, hk]
      omega
    · by_cases hp : p ∈ listed <;> simp [hp, hpk]
      omega

section Keys

variable {key : ReadyKey} {l : List ReadyKey}

theorem ReadyKey.before_iff {a b : ReadyKey} :
    a.before b = true ↔ a.seq < b.seq ∨ a.seq = b.seq ∧ a.id < b.id := by
  simp [ReadyKey.before]

theorem mem_insertReady {k : ReadyKey} : k ∈ insertReady key l ↔ k = key ∨ k ∈ l := by
  induction l with
  | nil => simp [insertReady]
  | cons head rest ih =>
    rw [insertReady]
    split
    · simp
    · rw [List.mem_cons, ih, List.mem_cons]
      tauto

theorem sorted_insertReady (hl : l.Pairwise fun a b => a.before b = true) (hk : key ∉ l) :
    (insertReady key l).Pairwise fun a b => a.before b = true := by
  induction l with
  | nil => simp [insertReady]
  | cons head rest ih =>
    obtain ⟨hhead, hrest⟩ := List.pairwise_cons.1 hl
    obtain ⟨hne, hk⟩ := not_or.1 fun h => hk (List.mem_cons.2 h)
    rw [insertReady]
    split
    · rename_i hlt
      refine List.pairwise_cons.2 ⟨fun k hm => ?_, hl⟩
      rcases List.mem_cons.1 hm with rfl | hm
      · exact hlt
      · have h₁ := ReadyKey.before_iff.1 hlt
        have h₂ := ReadyKey.before_iff.1 (hhead k hm)
        exact ReadyKey.before_iff.2 (by grind)
    · rename_i hge
      refine List.pairwise_cons.2 ⟨fun k hm => ?_, ih hrest hk⟩
      rcases mem_insertReady.1 hm with rfl | hm
      · rw [ReadyKey.before_iff] at hge ⊢
        obtain ⟨seq, id⟩ := k
        obtain ⟨seq', id'⟩ := head
        simp only [ReadyKey.mk.injEq] at hge hne ⊢
        grind
      · exact hhead k hm

end Keys

/-- The state of the walk once `listed` is listed and the edges to `targets` are still
to be closed. -/
structure OnSchedule (g : Graph) (listed targets : List NodeId) (s : Schedule) : Prop where
  start : g.IsStart listed
  targets_open : ∀ t ∈ targets, g.contains t = true ∧ t ∉ listed
  pending : ∀ id, g.contains id = true →
    s.pending.getD id 0 = g.openInputs listed id + targets.count id
  size : s.pending.size = g.nodes.size
  sorted : s.ready.Pairwise fun a b => a.before b = true
  mem_ready : ∀ key : ReadyKey, key ∈ s.ready ↔
    g.contains key.id = true ∧ key.seq = key.id ∧ key.id ∉ listed ∧
      s.pending.getD key.id 0 = 0

theorem getD_setIfInBounds {a : Array Nat} {i : Nat} (hi : i < a.size) (v j : Nat) :
    (a.setIfInBounds i v).getD j 0 = if j = i then v else a.getD j 0 := by
  simp only [Array.getD_eq_getD_getElem?, Array.getElem?_setIfInBounds]
  by_cases hj : j = i
  · simp [hj, hi]
  · simp [hj, Ne.symm hj]

section Closing

variable {s : Schedule} {t : NodeId} {node : Node} (hn : g.node? t = some node)

include hn

theorem pending_closeEdge : (g.closeEdge s t).pending =
    s.pending.setIfInBounds t (s.pending.getD t 0 - 1) := by
  simp only [closeEdge, hn]
  split <;> rfl

theorem ready_closeEdge : (g.closeEdge s t).ready =
    if s.pending.getD t 0 - 1 = 0 then insertReady ⟨node.seq, node.id⟩ s.ready else s.ready := by
  simp only [closeEdge, hn]
  split <;> rfl

end Closing

namespace OnSchedule

variable {listed targets : List NodeId} {s : Schedule} {t : NodeId}

theorem pending_pos (h : g.OnSchedule listed (t :: targets) s) : 0 < s.pending.getD t 0 := by
  rw [h.pending t (h.targets_open t (by simp)).1, List.count_cons_self]
  omega

theorem getD_closeEdge (h : g.OnSchedule listed (t :: targets) s) (id : NodeId) :
    (g.closeEdge s t).pending.getD id 0 =
      if id = t then s.pending.getD t 0 - 1 else s.pending.getD id 0 := by
  have hc := (h.targets_open t (by simp)).1
  obtain ⟨node, hn⟩ := contains_iff.1 hc
  rw [pending_closeEdge hn, getD_setIfInBounds (h.size ▸ lt_size_of_contains hc)]

theorem mem_ready_closeEdge (hg : g.Sound) (h : g.OnSchedule listed (t :: targets) s)
    {key : ReadyKey} : key ∈ (g.closeEdge s t).ready ↔
      key ∈ s.ready ∨ s.pending.getD t 0 - 1 = 0 ∧ key = ⟨t, t⟩ := by
  obtain ⟨node, hn⟩ := contains_iff.1 (h.targets_open t (by simp)).1
  rw [ready_closeEdge hn, hg.node_seq hn, hg.node_id t node hn]
  split
  · rename_i hzero
    rw [mem_insertReady, or_comm, and_iff_right hzero]
  · rename_i hopen
    simp only [hopen, false_and, or_false]

theorem sorted_closeEdge (hg : g.Sound) (h : g.OnSchedule listed (t :: targets) s) :
    (g.closeEdge s t).ready.Pairwise fun a b => a.before b = true := by
  obtain ⟨node, hn⟩ := contains_iff.1 (h.targets_open t (by simp)).1
  rw [ready_closeEdge hn, hg.node_seq hn, hg.node_id t node hn]
  split
  · -- a target still has an open edge, so it is not among the ready nodes yet
    refine sorted_insertReady h.sorted fun hm => ?_
    have hzero := ((h.mem_ready _).1 hm).2.2.2
    exact Nat.ne_of_gt h.pending_pos hzero
  · exact h.sorted

/-- Closing one edge. -/
theorem close (hg : g.Sound) (h : g.OnSchedule listed (t :: targets) s) :
    g.OnSchedule listed targets (g.closeEdge s t) := by
  obtain ⟨hc, hout⟩ := h.targets_open t (by simp)
  obtain ⟨node, hn⟩ := contains_iff.1 hc
  refine ⟨h.start, fun u hu => h.targets_open u (by simp [hu]), fun id hid => ?_,
    by simpa [pending_closeEdge hn] using h.size, h.sorted_closeEdge hg, fun key => ?_⟩
  · rw [h.getD_closeEdge]
    by_cases heq : id = t
    · rw [if_pos heq, heq, h.pending t hc, List.count_cons_self]
      omega
    · rw [if_neg heq, h.pending id hid, List.count_cons_of_ne (Ne.symm heq)]
  · rw [h.mem_ready_closeEdge hg, h.mem_ready, h.getD_closeEdge]
    obtain ⟨seq, id⟩ := key
    by_cases hk : id = t
    · subst hk
      simp only [hc, hout, Nat.ne_of_gt h.pending_pos, and_false, false_or, ReadyKey.mk.injEq,
        and_true, true_and, not_false_eq_true, if_true]
      exact and_comm
    · simp only [hk, if_false, ReadyKey.mk.injEq, and_false, or_false]

theorem closeAll (hg : g.Sound) (h : g.OnSchedule listed targets s) :
    g.OnSchedule listed [] (targets.foldl g.closeEdge s) := by
  induction targets generalizing s with
  | nil => exact h
  | cons t rest ih => exact ih (h.close hg)

theorem mem_ready_iff (h : g.OnSchedule listed [] s) {key : ReadyKey} :
    key ∈ s.ready ↔ key.seq = key.id ∧ g.IsReady listed key.id := by
  rw [h.mem_ready, IsReady]
  constructor
  · rintro ⟨hc, hs, hout, hp⟩
    rw [h.pending _ hc, List.count_nil, Nat.add_zero, openInputs_eq_zero_iff] at hp
    exact ⟨hs, hc, hout, hp⟩
  · rintro ⟨hs, hc, hout, hp⟩
    refine ⟨hc, hs, hout, ?_⟩
    rw [h.pending _ hc, List.count_nil, Nat.add_zero, openInputs_eq_zero_iff]
    exact hp

theorem first_ready (hg : g.Sound) (h : g.OnSchedule listed [] s) {key : ReadyKey}
    {rest : List ReadyKey} (hr : s.ready = key :: rest) : g.IsFirstReady listed key.id := by
  have hkey := h.mem_ready_iff.1 (hr ▸ List.mem_cons_self)
  refine ⟨hkey.2, fun other hother a ha b hb => ?_⟩
  obtain rfl := Option.some.inj ((hg.seq? hkey.2.1).symm.trans ha)
  obtain rfl := Option.some.inj ((hg.seq? hother.1).symm.trans hb)
  have hm : (⟨other, other⟩ : ReadyKey) ∈ s.ready := h.mem_ready_iff.2 ⟨rfl, hother⟩
  rw [hr] at hm
  rcases List.mem_cons.1 hm with heq | hm
  · rw [← heq]
  · have hsorted := h.sorted
    rw [hr] at hsorted
    have := ReadyKey.before_iff.1 ((List.pairwise_cons.1 hsorted).1 _ hm)
    have hs := hkey.1
    simp only at this
    omega

/-- Listing the first ready node opens the edges out of it. -/
theorem take (hg : g.Sound) (h : g.OnSchedule listed [] s) {key : ReadyKey}
    {rest : List ReadyKey} (hr : s.ready = key :: rest) {node : Node}
    (hn : g.node? key.id = some node) :
    g.OnSchedule (listed ++ [key.id]) node.successors { s with ready := rest } := by
  have hready := (h.first_ready hg hr).1
  have hkey := h.mem_ready_iff.1 (hr ▸ List.mem_cons_self)
  have hsucc : g.successors key.id = node.successors := by simp [successors, hn]
  have hsorted := h.sorted
  rw [hr] at hsorted
  obtain ⟨hhead, hrest⟩ := List.pairwise_cons.1 hsorted
  refine ⟨h.start.snoc hready, fun t ht => ?_, fun id hid => ?_, h.size, hrest, fun k => ?_⟩
  · rw [← hsucc] at ht
    have he := hg.linked.mem_successors_iff.1 ht
    -- a target listed already would have come after the node that is only listed now
    refine ⟨(hg.edge_live he).2, fun hm => ?_⟩
    rcases List.mem_append.1 hm with hm | hm
    · obtain ⟨before, after, hsplit⟩ := List.append_of_mem hm
      have := h.start.after_producers before t after hsplit _ (mem_producers_iff.2 he)
      exact hready.2.1 (hsplit ▸ List.mem_append_left _ this)
    · rw [List.mem_singleton.1 hm] at he
      exact hg.acyclic.not_edge_self _ he
  · rw [h.pending id hid, List.count_nil, Nat.add_zero, openInputs_snoc hready.2.1, ← hsucc,
      hg.count_successors hn]
  · have hmem := h.mem_ready k
    rw [hr, List.mem_cons] at hmem
    by_cases hk : k.id = key.id
    · constructor
      · intro hm
        have hseq := (hmem.1 (.inr hm)).2.1
        have := ReadyKey.before_iff.1 (hhead k hm)
        have hs := hkey.1
        grind
      · rintro ⟨-, -, hout, -⟩
        simp [hk] at hout
    · have hne : k ≠ key := fun heq => hk (by rw [heq])
      simp only [hne, false_or] at hmem
      simp only [hmem, List.mem_append, List.mem_singleton, hk, or_false]

end OnSchedule

theorem Sound.liveNodes_pairwise (hg : g.Sound) : g.liveNodes.Pairwise fun m n => m.id < n.id := by
  rw [liveNodes_eq, List.pairwise_filterMap]
  refine List.pairwise_lt_range.imp fun {a b} hab m hm n hn => ?_
  rw [hg.node_id a m hm, hg.node_id b n hn]
  exact hab

/-- Nodes without connected inputs, gathered in order of insertion. -/
theorem gathered_ready {l : List Node} {acc : List ReadyKey}
    (hacc : acc.Pairwise fun a b => a.before b = true) (hl : l.Pairwise fun m n => m.id < n.id)
    (hnew : ∀ n ∈ l, ∀ k ∈ acc, k.id ≠ n.id) :
    let gathered := l.foldl (fun ready node =>
      if connectedInputs node = 0 then insertReady ⟨node.seq, node.id⟩ ready else ready) acc
    (gathered.Pairwise fun a b => a.before b = true) ∧ ∀ key, key ∈ gathered ↔
      key ∈ acc ∨ ∃ n ∈ l, connectedInputs n = 0 ∧ key = ⟨n.seq, n.id⟩ := by
  induction l generalizing acc with
  | nil => simpa using hacc
  | cons n rest ih =>
    obtain ⟨hn, hrest⟩ := List.pairwise_cons.1 hl
    rw [List.foldl_cons]
    by_cases hz : connectedInputs n = 0
    · rw [if_pos hz]
      have hfresh : (⟨n.seq, n.id⟩ : ReadyKey) ∉ acc := fun hm => hnew n (by simp) _ hm rfl
      have := ih (sorted_insertReady hacc hfresh) hrest fun m hm k hk => by
        rcases mem_insertReady.1 hk with rfl | hk
        · exact Nat.ne_of_lt (hn m hm)
        · exact hnew m (by simp [hm]) k hk
      refine ⟨this.1, fun key => ?_⟩
      rw [this.2 key, mem_insertReady]
      simp only [List.mem_cons, exists_eq_or_imp, hz, true_and]
      tauto
    · rw [if_neg hz]
      have := ih hacc hrest fun m hm k hk => hnew m (by simp [hm]) k hk
      refine ⟨this.1, fun key => ?_⟩
      rw [this.2 key]
      simp [hz]

theorem Sound.initialSchedule (hg : g.Sound) : g.OnSchedule [] [] g.initialSchedule := by
  have hready := gathered_ready (List.Pairwise.nil (α := ReadyKey)) hg.liveNodes_pairwise (by simp)
  have hpending : ∀ id node, g.node? id = some node →
      g.initialSchedule.pending.getD id 0 = connectedInputs node := by
    intro id node hn
    have hn := Option.join_eq_some_iff.1 hn
    simp [Graph.initialSchedule, Array.getD_eq_getD_getElem?, hn]
  refine ⟨.nil g, by simp, fun id hid => ?_, by simp [Graph.initialSchedule], hready.1,
    fun key => (hready.2 key).trans ?_⟩
  · obtain ⟨node, hn⟩ := contains_iff.1 hid
    rw [hpending id node hn, openInputs_nil hn]
    rfl
  · simp only [List.not_mem_nil, false_or, not_false_eq_true, true_and]
    constructor
    · rintro ⟨node, hm, hz, rfl⟩
      obtain ⟨id, hn⟩ := mem_liveNodes.1 hm
      have hid := hg.node_id id node hn
      have hseq := hg.node_seq hn
      rw [← hid] at hn
      exact ⟨contains_iff.2 ⟨node, hn⟩, by simp [hseq, hid], by rw [hpending _ _ hn, hz]⟩
    · rintro ⟨hc, hs, hp⟩
      obtain ⟨node, hn⟩ := contains_iff.1 hc
      have hid := hg.node_id _ node hn
      have hseq := hg.node_seq hn
      refine ⟨node, mem_liveNodes.2 ⟨_, hn⟩, by rw [← hpending _ _ hn, hp], ?_⟩
      rw [hseq, hid]
      cases key
      simp_all

/-- As many distinct live nodes as the arena has room for are all of them. -/
theorem IsStart.full {listed : List NodeId} (hs : g.IsStart listed)
    (hlen : g.nodes.size ≤ listed.length) (id : NodeId) : ¬ g.IsReady listed id := by
  rintro ⟨hc, hout, -⟩
  have hsub : id :: listed ⊆ List.range g.nodes.size := by
    intro x hx
    rcases List.mem_cons.1 hx with rfl | hx
    · exact List.mem_range.2 (lt_size_of_contains hc)
    · exact List.mem_range.2 (lt_size_of_contains (hs.live x hx))
  have := (List.nodup_cons.2 ⟨hout, hs.nodup⟩).length_le_of_subset hsub
  rw [List.length_cons, List.length_range] at this
  omega

namespace OnSchedule

variable {listed targets : List NodeId} {s : Schedule}

theorem closeAll? (hg : g.Sound) (h : g.OnSchedule listed targets s) :
    targets.foldlM g.closeEdge? s = some (targets.foldl g.closeEdge s) := by
  induction targets generalizing s with
  | nil => rfl
  | cons t rest ih =>
    have hpos : s.pending.getD t 0 ≠ 0 := Nat.ne_of_gt h.pending_pos
    rw [List.foldlM_cons, closeEdge?, if_neg hpos]
    exact ih (h.close hg)

/-- The walk from any state on its way, by induction on the nodes it may still list. -/
theorem drain (hg : g.Sound) {count : Nat} (h : g.OnSchedule listed [] s)
    (hcount : g.nodes.size ≤ listed.length + count) :
    g.ReadyOrder listed (g.drain count s) ∧ g.drain? count s = some (g.drain count s) := by
  induction count generalizing listed s with
  | zero => exact ⟨.done (h.start.full hcount), rfl⟩
  | succ count ih =>
    cases hr : s.ready with
    | nil =>
      rw [Graph.drain, Graph.drain?, hr]
      refine ⟨.done fun id hid => ?_, rfl⟩
      have : (⟨id, id⟩ : ReadyKey) ∈ s.ready := h.mem_ready_iff.2 ⟨rfl, hid⟩
      simp [hr] at this
    | cons key rest =>
      have hfirst := h.first_ready hg hr
      obtain ⟨node, hn⟩ := contains_iff.1 hfirst.1.1
      have htaken := h.take hg hr hn
      have hnext := ih (htaken.closeAll hg) (by
        rw [List.length_append, List.length_singleton]
        omega)
      rw [Graph.drain, Graph.drain?, hr]
      simp only [hn]
      refine ⟨.next hfirst hnext.1, ?_⟩
      rw [htaken.closeAll? hg]
      simp [hnext.2]

end OnSchedule

theorem Sound.order (hg : g.Sound) : g.ReadyOrder [] g.order ∧ g.order? = some g.order :=
  hg.initialSchedule.drain hg (by simp)

theorem Sound.order_isTopological (hg : g.Sound) : g.IsTopological g.order := by
  simpa using hg.order.1.isTopological hg (.nil g)

theorem Sound.length_order (hg : g.Sound) : g.order.length = g.live := by
  have ht := hg.order_isTopological
  have hperm : g.order.Perm ((List.range g.nodes.size).filter fun k => g.contains k) := by
    rw [List.perm_ext_iff_of_nodup ht.nodup (List.nodup_range.filter _)]
    intro id
    rw [ht.mem_iff, List.mem_filter, List.mem_range]
    exact ⟨fun h => ⟨lt_size_of_contains h, h⟩, And.right⟩
  rw [hperm.length_eq, hg.live, length_liveNodes, List.countP_eq_length_filter]

/-- Validation walks the graph, and the walk reaches every live node. -/
theorem Sound.validate_eq (hg : g.Sound) :
    g.validate = (g.liveNodes.forM checkComplete >>= fun _ =>
      g.liveNodes.forM g.checkOperation >>= fun _ => g.bindingTable >>= fun _ => pure ()) := by
  rw [validate, if_neg (by simpa using hg.length_order)]

theorem Sound.validate_ne_cycle (hg : g.Sound) : g.validate ≠ .error .cycle := by
  intro h
  rcases fault_of_validate h with ⟨-, hwalk⟩ | ⟨node, -, hnode⟩ | ⟨d, -, hd⟩
  · exact hwalk hg.length_order
  · cases hnode
  · cases hd

/-- The order of a graph is its ready order: every live node once, after its producers,
before any other order of that kind, and told by the nodes and edges alone. Finding it
lowers no counter below zero, and so validation never takes a graph for cyclic. -/
theorem reachable_order (hg : g.Reachable) :
    g.IsTopological g.order ∧ g.ReadyOrder [] g.order ∧
      (∀ l, g.IsTopological l →
        ¬ List.Lex (· < ·) (l.filterMap g.seq?) (g.order.filterMap g.seq?)) ∧
      (∀ h : Graph, h.Reachable → (∀ id, h.seq? id = g.seq? id) →
        (∀ p id, p ∈ h.producers id ↔ p ∈ g.producers id) → h.order = g.order) ∧
      g.order? = some g.order ∧ g.validate ≠ .error .cycle := by
  have hs := hg.sound
  refine ⟨hs.order_isTopological, hs.order.1, fun l hl => hs.order.1.least hs hl,
    fun h hh hseq hedge => ?_, hs.order.2, hs.validate_ne_cycle⟩
  exact (hh.sound.order.1.transport hseq hedge).unique hs hs.order.1

/-- Two sums of one input that an output would read, with a hole before them and a slot left
open. The input feeds the sums in the order in which they are connected. -/
def fan (connections : List GraphChange) : Graph := empty.changed
  ([.add (.output 0) "gone", .add .addition "b", .add (.input 0) "x", .add .addition "a",
    .add (.output 0) "y", .remove 0, .connect ⟨3, 0⟩ ⟨4, 0⟩] ++ connections)

theorem reachable_order_fan :
    let g := fan [.connect ⟨2, 0⟩ ⟨1, 0⟩, .connect ⟨2, 0⟩ ⟨1, 1⟩, .connect ⟨2, 0⟩ ⟨3, 1⟩]
    let h := fan [.connect ⟨2, 0⟩ ⟨3, 1⟩, .connect ⟨2, 0⟩ ⟨1, 1⟩, .connect ⟨2, 0⟩ ⟨1, 0⟩]
    g.Reachable ∧ g.order = [2, 1, 3, 4] ∧ g.IsTopological g.order ∧ h ≠ g ∧ h.order = g.order ∧
      g.validate ≠ .error .cycle := by
  intro g h
  have hg : g.Reachable := .changed .empty _
  have hh : h.Reachable := .changed .empty _
  have hsize : g.nodes.size = 5 ∧ h.nodes.size = 5 := by decide +kernel
  have hnode : ∀ k, g.node? (k + 5) = none ∧ h.node? (k + 5) = none := fun k =>
    ⟨node?_eq_none_of_size_le g (by omega), node?_eq_none_of_size_le h (by omega)⟩
  have hseq : ∀ id, h.seq? id = g.seq? id := by
    rintro (_ | _ | _ | _ | _ | k)
    iterate 5 decide +kernel
    simp [seq?, hnode k]
  have hedge : ∀ p id, p ∈ h.producers id ↔ p ∈ g.producers id := by
    rintro p (_ | _ | _ | _ | _ | k)
    iterate 5 exact iff_of_eq (congrArg (p ∈ ·) (by decide +kernel))
    simp [producers, hnode k]
  have horder := reachable_order hg
  exact ⟨hg, by decide +kernel, horder.1, by decide +kernel, horder.2.2.2.1 h hh hseq hedge,
    horder.2.2.2.2.2⟩

end Graph

end LayerGraph
