import LayerGraph.Proofs.Soundness

/-!
# The representation invariant

What every edit keeps holds of every graph that edits can make, and an id that was taken
away stays away.
-/

set_option autoImplicit false

namespace LayerGraph

open Relation

namespace Edit

open LayerGraph.Graph

variable {g : Graph}

/-- A node whose inputs are disconnected is still there. -/
theorem exists_detached {id : NodeId} {node : Node} (hn : g.node? id = some node) (count : Nat) :
    ∃ removed, (g.detachAll id count).node? id = some removed := by
  have hsame := (SameNodes.detachAll g id (List.range count)).contains id
  exact contains_iff.1 (hsame.trans (contains_iff.2 ⟨node, hn⟩))

theorem remove_ok {id : NodeId} {node : Node} (hn : g.node? id = some node)
    (hc : node.hasConsumers = false) :
    ∃ removed, remove id g = .ok removed (g.without id node.inputs.length) := by
  obtain ⟨removed, hr⟩ := exists_detached hn node.inputs.length
  refine ⟨removed, ?_⟩
  rw [remove, bind_ok (checkNode_ok hn)]
  simp only [hc, Bool.false_eq_true, if_false]
  exact bind_ok (checkNode_ok hr)

theorem after_remove (id : NodeId) :
    (remove id).after g = g ∨ ∃ node, g.node? id = some node ∧ node.hasConsumers = false ∧
      (remove id).after g = g.without id node.inputs.length := by
  cases hr : g.requireNode id with
  | error err => exact .inl (after_check_error hr)
  | ok node =>
    have hn := requireNode_eq_ok_iff.1 hr
    cases hc : node.hasConsumers with
    | true =>
      refine .inl ?_
      rw [remove, after_check_ok hr]
      simp only [hc, if_true]
      rfl
    | false =>
      obtain ⟨removed, hok⟩ := remove_ok hn hc
      exact .inr ⟨node, hn, hc, after_ok hok⟩

end Edit

namespace Graph

variable {g : Graph}

/-- Positions that a later graph has in common with an earlier one hold no new nodes. -/
structure Grows (g h : Graph) : Prop where
  size_le : g.nodes.size ≤ h.nodes.size
  no_birth : ∀ id, id < g.nodes.size → h.contains id = true → g.contains id = true

theorem Grows.refl (g : Graph) : g.Grows g := ⟨Nat.le_refl _, fun _ _ h => h⟩

theorem Grows.trans {g h k : Graph} (hgh : g.Grows h) (hhk : h.Grows k) : g.Grows k where
  size_le := Nat.le_trans hgh.size_le hhk.size_le
  no_birth id hlt hc :=
    hgh.no_birth id hlt (hhk.no_birth id (Nat.lt_of_lt_of_le hlt hgh.size_le) hc)

theorem SameNodes.grows {h : Graph} (hs : g.SameNodes h) : g.Grows h :=
  ⟨Nat.le_of_eq hs.size.symm, fun id _ hc => (hs.contains id).symm.trans hc⟩

theorem grows_push (operation : Operation) (name : String) : g.Grows (g.push operation name) where
  size_le := by simp [push]
  no_birth id hlt hc := by
    rw [contains_push] at hc
    simpa [Nat.ne_of_lt hlt] using hc

theorem grows_setDescriptor (o : OutputSlot) (d : Descriptor) : g.Grows (g.setDescriptor o d) where
  size_le := Nat.le_of_eq (size_setDescriptor g o d).symm
  no_birth id _ hc := by
    rw [contains_eq_frame?, frame?_setDescriptor] at hc
    rw [contains_eq_frame?]
    split at hc <;> simpa using hc

theorem grows_splice (operation : Operation) (name : String) (o : OutputSlot) (s : InputSlot)
    (d : Descriptor) : g.Grows ((g.push operation name).splice g.nodes.size o s d) where
  size_le := by
    rw [splice_eq, size_setInput, size_updateConsumers, size_updateConsumers, size_setDescriptor,
      size_setInput]
    exact (grows_push operation name).size_le
  no_birth id hlt hc := by
    rw [contains_eq_frame?, frame?_splice_push, if_neg (Nat.ne_of_lt hlt)] at hc
    rwa [contains_eq_frame?]

theorem grows_without (id : NodeId) (count : Nat) : g.Grows (g.without id count) where
  size_le := by
    simp only [without, drop, Array.size_modify]
    exact Nat.le_of_eq (SameNodes.detachAll g id _).size.symm
  no_birth k _ hc := by
    rw [contains_eq_frame?, frame?_without] at hc
    rw [contains_eq_frame?]
    split at hc
    · simp at hc
    · exact hc

/-- One change keeps the invariant and brings no removed node back. -/
theorem Sound.after (hg : g.Sound) (c : GraphChange) : (c.after g).Sound ∧ g.Grows (c.after g) := by
  have hsame : g.Sound ∧ g.Grows g := ⟨hg, .refl g⟩
  cases c with
  | add operation name => exact ⟨hg.push operation name, grows_push operation name⟩
  | setDescriptor slot descriptor =>
    rcases Edit.after_setDescriptor (g := g) slot descriptor with h | ⟨-, h⟩ <;>
      simp only [GraphChange.after, h]
    · exact hsame
    · exact ⟨hg.setDescriptor slot descriptor, grows_setDescriptor slot descriptor⟩
  | connect source target =>
    rcases Edit.after_connect (g := g) source target with h | ⟨hc, h⟩ <;>
      simp only [GraphChange.after, h]
    · exact hsame
    · exact ⟨hg.link hc, (SameNodes.link g source target).grows⟩
  | disconnect slot =>
    rcases Edit.after_disconnect (g := g) slot with h | ⟨o, hs, h⟩ <;>
      simp only [GraphChange.after, h]
    · exact hsame
    · exact ⟨hg.unlink hs, (SameNodes.unlink g o slot).grows⟩
  | insert position operation name descriptor =>
    rcases Edit.after_insert (g := g) position operation name descriptor with
      h | ⟨o, hs, hin, hout, h⟩ <;> simp only [GraphChange.after, h]
    · exact hsame
    · exact ⟨hg.splice name descriptor hs hin hout,
        grows_splice operation name o position descriptor⟩
  | moveAll source target =>
    rcases Edit.after_moveAll (g := g) source target with h | ⟨hc, h⟩ <;>
      simp only [GraphChange.after, h]
    · exact hsame
    · exact ⟨hg.moveConsumers hc, (SameNodes.moveConsumers g source target _).grows⟩
  | remove node =>
    rcases Edit.after_remove (g := g) node with h | ⟨n, hn, hc, h⟩ <;>
      simp only [GraphChange.after, h]
    · exact hsame
    · exact ⟨hg.without hn hc, grows_without node _⟩
  | addRelated replacement superseded =>
    rcases Edit.after_addRelated (g := g) replacement superseded with h | ⟨hc, labels, h⟩ <;>
      simp only [GraphChange.after, h]
    · exact hsame
    · exact ⟨hg.setRelated hc labels, Nat.le_refl _, fun _ _ h => h⟩

theorem Reachable.sound (hg : g.Reachable) : g.Sound := by
  induction hg with
  | empty => exact .empty
  | change c _ ih => exact (ih.after c).1

def Leads : Graph → Graph → Prop := ReflTransGen fun g h => ∃ c : GraphChange, h = c.after g

theorem Sound.leads {h : Graph} (hg : g.Sound) (hgh : g.Leads h) : h.Sound ∧ g.Grows h := by
  induction hgh with
  | refl => exact ⟨hg, .refl g⟩
  | tail _ hstep ih =>
    obtain ⟨c, rfl⟩ := hstep
    have hc := ih.1.after c
    exact ⟨hc.1, ih.2.trans hc.2⟩

def changed (g : Graph) (changes : List GraphChange) : Graph :=
  changes.foldl (fun g c => c.after g) g

theorem leads_changed (g : Graph) (changes : List GraphChange) : g.Leads (g.changed changes) := by
  induction changes generalizing g with
  | nil => exact .refl
  | cons c rest ih => exact .head ⟨c, rfl⟩ (ih (c.after g))

theorem Reachable.changed (hg : g.Reachable) (changes : List GraphChange) :
    (g.changed changes).Reachable := by
  induction changes generalizing g with
  | nil => exact hg
  | cons c rest ih => exact ih (.change c hg)

/-- The representation invariant, clause by clause. -/
structure WellFormed (g : Graph) : Prop where
  node_id : ∀ id node, g.node? id = some node → node.id = id
  seq_lt : ∀ a b m n, g.node? a = some m → g.node? b = some n → a < b → m.seq < n.seq
  slots : ∀ id node, g.node? id = some node →
    node.inputs.length = node.kind.numInputs ∧ node.outputs.length = node.kind.numOutputs
  source_iff : ∀ s o, g.source? s = some o ↔ s ∈ g.readers o
  readers_once : ∀ s o, s ∈ g.readers o → (g.readers o).count s = 1
  producers_live : ∀ id node, g.node? id = some node →
    ∀ o, some o ∈ node.inputs → g.contains o.node = true
  consumers_live : ∀ id node, g.node? id = some node →
    ∀ out ∈ node.outputs, ∀ s ∈ out.consumers, g.contains s.node = true
  acyclic : ∀ id, ¬ TransGen g.Edge id id
  live_eq : g.live = g.liveNodes.length
  related_live : ∀ entry ∈ g.related, g.contains entry.1 = true

theorem Sound.wellFormed (hg : g.Sound) : g.WellFormed where
  node_id := hg.node_id
  seq_lt a b m n hm hn hab := by
    rw [hg.node_seq hm, hg.node_seq hn]
    exact hab
  slots id node hn := ⟨hg.length_inputs hn, hg.length_outputs hn⟩
  source_iff := hg.linked.source_iff
  readers_once s o hs := List.count_eq_one_of_mem (hg.linked.readers_nodup o) hs
  producers_live id node hn o ho := by
    obtain ⟨i, hi⟩ := List.mem_iff_getElem?.1 ho
    have hs : g.source? ⟨id, i⟩ = some o := by simp [source?_of_node hn, Node.input?, hi]
    obtain ⟨producer, hp, -⟩ := hg.linked.hasOutput_of_source? hs
    exact contains_iff.2 ⟨producer, hp⟩
  consumers_live id node hn out hout s hs := by
    obtain ⟨i, hi⟩ := List.mem_iff_getElem?.1 hout
    have hr : s ∈ g.readers ⟨id, i⟩ := by simpa [readers_of_node hn, Node.consumers, hi] using hs
    obtain ⟨consumer, hc, -⟩ := hg.linked.hasInput_of_mem_readers hr
    exact contains_iff.2 ⟨consumer, hc⟩
  acyclic := hg.acyclic
  live_eq := hg.live
  related_live := hg.related

/-- Whatever changes are asked for, the graph keeps its representation invariant, and an
id that was taken away stays away. -/
theorem reachable_wellFormed (hg : g.Reachable) :
    g.WellFormed ∧ ∀ h k id, g.Leads h → h.Leads k →
      g.contains id = true → h.contains id = false → k.contains id = false := by
  refine ⟨hg.sound.wellFormed, fun h k id hgh hhk hin hout => ?_⟩
  obtain ⟨hh, hgrow⟩ := hg.sound.leads hgh
  have hlt : id < h.nodes.size := Nat.lt_of_lt_of_le (lt_size_of_contains hin) hgrow.size_le
  rw [Bool.eq_false_iff]
  intro hk
  rw [(hh.leads hhk).2.no_birth id hlt hk] at hout
  cases hout

/-- A sum of one input with itself, after a connection that would have closed a cycle. -/
def doubling : Graph := empty.changed
  [.add (.input 0) "x", .add .addition "twice", .connect ⟨0, 0⟩ ⟨1, 1⟩, .connect ⟨0, 0⟩ ⟨1, 0⟩,
    .add (.output 0) "y", .connect ⟨2, 0⟩ ⟨0, 0⟩, .connect ⟨1, 0⟩ ⟨2, 0⟩, .addRelated 1 0,
    .moveAll ⟨0, 0⟩ ⟨1, 0⟩]

theorem reachable_wellFormed_doubling :
    doubling.Reachable ∧ doubling.WellFormed ∧ doubling.contains 2 = true ∧
      (doubling.changed [.remove 2]).contains 2 = false ∧
      ((doubling.changed [.remove 2]).changed [.add .addition "z"]).contains 2 = false := by
  have hg : doubling.Reachable := .changed .empty _
  have hwell := reachable_wellFormed hg
  have hin : doubling.contains 2 = true := by decide +kernel
  have hout : (doubling.changed [.remove 2]).contains 2 = false := by decide +kernel
  exact ⟨hg, hwell.1, hin, hout,
    hwell.2 _ _ 2 (leads_changed _ _) (leads_changed _ _) hin hout⟩

end Graph

end LayerGraph
