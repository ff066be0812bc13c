import LayerGraph.Proofs.Paths

/-!
# Both ends of an edge

An edge stands in the input slot that reads it and among the consumers of the output that
it leaves. Every rewiring keeps the two in agreement, and the nodes as they are.
-/

set_option autoImplicit false

namespace LayerGraph

namespace Graph

/-- Two graphs with the same nodes, wired in possibly different ways. -/
structure SameNodes (g h : Graph) : Prop where
  frame? : ∀ k, h.frame? k = g.frame? k
  size : h.nodes.size = g.nodes.size
  live : h.live = g.live
  nextSeq : h.nextSeq = g.nextSeq
  related : h.related = g.related

namespace SameNodes

theorem refl (g : Graph) : g.SameNodes g := ⟨fun _ => rfl, rfl, rfl, rfl, rfl⟩

theorem trans {g h k : Graph} (hgh : g.SameNodes h) (hhk : h.SameNodes k) : g.SameNodes k where
  frame? id := (hhk.frame? id).trans (hgh.frame? id)
  size := hhk.size.trans hgh.size
  live := hhk.live.trans hgh.live
  nextSeq := hhk.nextSeq.trans hgh.nextSeq
  related := hhk.related.trans hgh.related

theorem contains {g h : Graph} (hs : g.SameNodes h) (id : NodeId) :
    h.contains id = g.contains id := by
  rw [contains_eq_frame?, contains_eq_frame?, hs.frame?]

theorem setInput (g : Graph) (s : InputSlot) (p : Option OutputSlot) :
    g.SameNodes (g.setInput s p) :=
  ⟨frame?_setInput g s p, size_setInput g s p, rfl, rfl, rfl⟩

theorem updateConsumers (g : Graph) (o : OutputSlot) (f : List InputSlot → List InputSlot) :
    g.SameNodes (g.updateConsumers o f) :=
  ⟨frame?_updateConsumers g o f, size_updateConsumers g o f, rfl, rfl, rfl⟩

theorem link (g : Graph) (o : OutputSlot) (s : InputSlot) : g.SameNodes (g.link o s) :=
  (setInput g s _).trans (updateConsumers _ o _)

theorem unlink (g : Graph) (o : OutputSlot) (s : InputSlot) : g.SameNodes (g.unlink o s) :=
  (setInput g s _).trans (updateConsumers _ o _)

theorem setInputs (g : Graph) (o : OutputSlot) (slots : List InputSlot) :
    g.SameNodes (slots.foldl (fun g s => g.setInput s (some o)) g) := by
  induction slots generalizing g with
  | nil => exact refl g
  | cons s rest ih => exact (setInput g s _).trans (ih _)

theorem moveConsumers (g : Graph) (o p : OutputSlot) (moved : List InputSlot) :
    g.SameNodes (g.moveConsumers o p moved) :=
  ((updateConsumers g o fun _ => []).trans (setInputs _ p moved)).trans
    (updateConsumers _ p fun slots => slots ++ moved)

end SameNodes

theorem detach_eq (g : Graph) (s : InputSlot) :
    g.detach s = match g.source? s with
      | some o => g.unlink o s
      | none => g := by
  cases hp : g.producer s with
  | error err =>
    cases hs : g.source? s with
    | none => simp [detach, hp]
    | some o =>
      rw [producer_eq_ok_iff.2 ⟨hasInput_of_source? hs, hs⟩] at hp
      cases hp
  | ok p =>
    obtain ⟨-, rfl⟩ := producer_eq_ok_iff.1 hp
    cases hs : g.source? s <;> simp [detach, hp, hs]

theorem SameNodes.detach (g : Graph) (s : InputSlot) : g.SameNodes (g.detach s) := by
  rw [detach_eq]
  cases g.source? s with
  | none => exact .refl g
  | some o => exact .unlink g o s

theorem SameNodes.detachAll (g : Graph) (id : NodeId) (indices : List Nat) :
    g.SameNodes (indices.foldl (fun g i => g.detach ⟨id, i⟩) g) := by
  induction indices generalizing g with
  | nil => exact .refl g
  | cons i rest ih => exact (SameNodes.detach g _).trans (ih _)

theorem source?_detach (g : Graph) (s t : InputSlot) :
    (g.detach s).source? t = if t = s then none else g.source? t := by
  rw [detach_eq]
  cases hs : g.source? s with
  | none =>
    by_cases ht : t = s
    · simp [ht, hs]
    · simp [ht]
  | some o => exact source?_unlink g o s (hasInput_of_source? hs) t

theorem source?_detachAll (g : Graph) (id : NodeId) (indices : List Nat) (t : InputSlot) :
    (indices.foldl (fun g i => g.detach ⟨id, i⟩) g).source? t =
      if t.node = id ∧ t.index ∈ indices then none else g.source? t := by
  induction indices generalizing g with
  | nil => simp
  | cons i rest ih =>
    rw [List.foldl_cons, ih, source?_detach]
    obtain ⟨k, j⟩ := t
    by_cases hk : k = id <;> by_cases hj : j = i <;> simp [hk, hj]

namespace Linked

variable {g : Graph}

theorem hasOutput_of_source? (hl : g.Linked) {s : InputSlot} {o : OutputSlot}
    (h : g.source? s = some o) : g.HasOutput o :=
  hasOutput_of_mem_readers ((hl.source_iff s o).1 h)

theorem hasInput_of_mem_readers (hl : g.Linked) {s : InputSlot} {o : OutputSlot}
    (h : s ∈ g.readers o) : g.HasInput s :=
  hasInput_of_source? ((hl.source_iff s o).2 h)

theorem not_mem_readers (hl : g.Linked) {s : InputSlot} (hfree : g.source? s = none)
    (o : OutputSlot) : s ∉ g.readers o := fun hm => by
  simp [(hl.source_iff s o).2 hm] at hfree

theorem readers_disjoint (hl : g.Linked) {s : InputSlot} {o p : OutputSlot}
    (ho : s ∈ g.readers o) (hp : s ∈ g.readers p) : o = p :=
  Option.some.inj (((hl.source_iff s o).2 ho).symm.trans ((hl.source_iff s p).2 hp))

theorem link (hl : g.Linked) {o : OutputSlot} {s : InputSlot} (ho : g.HasOutput o)
    (hs : g.HasInput s) (hfree : g.source? s = none) : (g.link o s).Linked where
  source_iff t p := by
    rw [source?_link g o s hs, readers_link g o s ho]
    by_cases ht : t = s
    · subst ht
      by_cases hp : p = o
      · simp [hp]
      · simp [hp, hl.not_mem_readers hfree p, Ne.symm hp]
    · by_cases hp : p = o <;> simp [ht, hp, hl.source_iff]
  readers_nodup p := by
    rw [readers_link g o s ho]
    split
    · refine (hl.readers_nodup o).append (by simp) ?_
      simpa only [List.disjoint_singleton] using hl.not_mem_readers hfree o
    · exact hl.readers_nodup p

theorem unlink (hl : g.Linked) {o : OutputSlot} {s : InputSlot} (hs : g.source? s = some o) :
    (g.unlink o s).Linked where
  source_iff t p := by
    rw [source?_unlink g o s (hasInput_of_source? hs),
      readers_unlink g o s (hl.hasOutput_of_source? hs)]
    by_cases hp : p = o
    · subst hp
      rw [if_pos rfl, (hl.readers_nodup p).mem_erase_iff, ← hl.source_iff]
      by_cases ht : t = s <;> simp [ht]
    · rw [if_neg hp, ← hl.source_iff]
      by_cases ht : t = s
      · simp [ht, hs, Ne.symm hp]
      · simp [ht]
  readers_nodup p := by
    rw [readers_unlink g o s (hl.hasOutput_of_source? hs)]
    split
    · exact (hl.readers_nodup o).erase s
    · exact hl.readers_nodup p

theorem detach (hl : g.Linked) (s : InputSlot) : (g.detach s).Linked := by
  rw [detach_eq]
  cases hs : g.source? s with
  | none => exact hl
  | some o => exact hl.unlink hs

theorem detachAll (hl : g.Linked) (id : NodeId) (indices : List Nat) :
    (indices.foldl (fun g i => g.detach ⟨id, i⟩) g).Linked := by
  induction indices generalizing g with
  | nil => exact hl
  | cons i rest ih => exact ih (hl.detach _)

theorem moveConsumers (hl : g.Linked) {o p : OutputSlot} (ho : g.HasOutput o)
    (hp : g.HasOutput p) (hop : o ≠ p) : (g.moveConsumers o p (g.readers o)).Linked where
  source_iff t q := by
    rw [source?_moveConsumers g o p _ fun s hs => hl.hasInput_of_mem_readers hs,
      readers_moveConsumers g o p _ ho hp hop]
    by_cases ht : t ∈ g.readers o
    · by_cases hq : q = p
      · simp [ht, hq]
      · by_cases hqo : q = o
        · subst hqo
          simp [ht, Ne.symm hq, hq]
        · have hnot : t ∉ g.readers q := fun hm => hqo (hl.readers_disjoint hm ht)
          simp [ht, hq, hqo, hnot, Ne.symm hq]
    · by_cases hq : q = p
      · simp [ht, hq, hl.source_iff]
      · by_cases hqo : q = o
        · subst hqo
          simp [ht, hq, hl.source_iff]
        · simp [ht, hq, hqo, hl.source_iff]
  readers_nodup q := by
    rw [readers_moveConsumers g o p _ ho hp hop]
    split
    · exact (hl.readers_nodup p).append (hl.readers_nodup o) fun t htp hto =>
        hop (hl.readers_disjoint hto htp)
    · split
      · exact List.nodup_nil
      · exact hl.readers_nodup q

end Linked

section Replacing

variable {α : Type} [DecidableEq α] {a b : α}

theorem mem_replace_iff {l : List α} (hn : l.Nodup) (ha : a ∈ l) {x : α} :
    x ∈ l.replace a b ↔ x = b ∨ x ≠ a ∧ x ∈ l := by
  induction l with
  | nil => simp at ha
  | cons y rest ih =>
    obtain ⟨hy, hr⟩ := List.nodup_cons.1 hn
    rw [List.replace_cons]
    by_cases hay : a = y
    · subst hay
      have hx : x ∈ rest → x ≠ a := fun hm h => hy (h ▸ hm)
      simp only [beq_self_eq_true, List.mem_cons]
      tauto
    · have ha : a ∈ rest := (List.mem_cons.1 ha).resolve_left hay
      have hx : x = y → x ≠ a := fun h h' => hay (h'.symm.trans h)
      simp only [beq_eq_false_iff_ne.2 hay, List.mem_cons, ih hr ha]
      tauto

theorem nodup_replace {l : List α} (hn : l.Nodup) (ha : a ∈ l) (hb : b ∉ l) :
    (l.replace a b).Nodup := by
  induction l with
  | nil => simp
  | cons y rest ih =>
    obtain ⟨hy, hr⟩ := List.nodup_cons.1 hn
    obtain ⟨hby, hb⟩ := not_or.1 (fun h => hb (List.mem_cons.2 h))
    rw [List.replace_cons]
    by_cases hay : a = y
    · simpa [hay] using ⟨hb, hr⟩
    · have ha : a ∈ rest := (List.mem_cons.1 ha).resolve_left hay
      simp only [beq_eq_false_iff_ne.2 hay]
      refine List.nodup_cons.2 ⟨fun hm => ?_, ih hr ha hb⟩
      rcases (mem_replace_iff hr ha).1 hm with h | ⟨-, h⟩
      · exact hby h.symm
      · exact hy h

end Replacing

/-- Splicing a fresh node into an edge keeps the ends of all edges in agreement. -/
theorem Linked.splice {g : Graph} (hl : g.Linked) {operation : Operation} (name : String)
    {o : OutputSlot} {s : InputSlot} (d : Descriptor) (hs : g.source? s = some o)
    (hin : operation.kind.numInputs = 1) (hout : operation.kind.numOutputs = 1) :
    ((g.push operation name).splice g.nodes.size o s d).Linked := by
  have hsi := hasInput_of_source? hs
  have ho := hl.hasOutput_of_source? hs
  have hhole : g.node? g.nodes.size = none := node?_eq_none_of_size_le g (Nat.le_refl _)
  have hfree : g.source? ⟨g.nodes.size, 0⟩ = none := source?_of_hole hhole
  have hunread := hl.not_mem_readers hfree
  have hne : o ≠ ⟨g.nodes.size, 0⟩ := fun h => absurd ho.node_lt (by simp [h])
  have hsne : s ≠ ⟨g.nodes.size, 0⟩ := fun h => absurd hsi.node_lt (by simp [h])
  have hmem : s ∈ g.readers o := (hl.source_iff s o).1 hs
  constructor
  · intro t p
    rw [source?_splice_push name d hin hsi, readers_splice_push name d hout ho]
    -- the output asked about is the one the edge left, the one of the new node, or neither
    by_cases hp : p = o
    · subst hp
      rw [if_pos rfl, mem_replace_iff (hl.readers_nodup p) hmem, ← hl.source_iff]
      by_cases ht : t = s
      · simp [ht, hsne, Ne.symm hne]
      · by_cases hti : t = ⟨g.nodes.size, 0⟩ <;> simp [ht, hti]
        exact fun h => absurd (hti ▸ h) hsne.symm
    · by_cases hpn : p = ⟨g.nodes.size, 0⟩
      · have hr : g.readers ⟨g.nodes.size, 0⟩ = [] := readers_of_hole hhole
        have hnot : g.source? t ≠ some ⟨g.nodes.size, 0⟩ := fun h => by
          have := (hl.source_iff t _).1 h
          simp [hr] at this
        by_cases ht : t = s
        · simp [hpn, Ne.symm hne, ht]
        · by_cases hti : t = ⟨g.nodes.size, 0⟩ <;> simp_all
      · by_cases ht : t = s
        · have hnot : s ∉ g.readers p := fun hm => hp (hl.readers_disjoint hm hmem)
          simp [ht, hp, hpn, hnot, Ne.symm hpn]
        · by_cases hti : t = ⟨g.nodes.size, 0⟩
          · simp [hti, Ne.symm hsne, hp, hpn, hunread p, Ne.symm hp]
          · simp [ht, hti, hp, hpn, hl.source_iff]
  · intro p
    rw [readers_splice_push name d hout ho]
    split
    · exact nodup_replace (hl.readers_nodup o) hmem (hunread o)
    · split
      · simp
      · exact hl.readers_nodup p

end Graph

end LayerGraph
