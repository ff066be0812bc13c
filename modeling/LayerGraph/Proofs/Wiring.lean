import LayerGraph.Graph.Reachable
import Mathlib.Data.List.Nodup
import Mathlib.Logic.Relation

/-!
# Wiring of a graph

A graph seen from outside its arena: which nodes there are and what they are (their
frames), which output every input slot reads, and which input slots read every output.
Each update of the arena is described by what it does to these three views.
-/

set_option autoImplicit false

namespace LayerGraph

/-- What stays of a node when it is rewired. -/
structure NodeFrame where
  id : NodeId
  name : String
  operation : Operation
  seq : Nat
  inputCount : Nat
  descriptors : List (Option Descriptor)

def Node.frame (n : Node) : NodeFrame :=
  { id := n.id, name := n.name, operation := n.operation, seq := n.seq
    inputCount := n.inputs.length
    descriptors := n.outputs.map (·.descriptor) }

namespace Graph

def frame? (g : Graph) (id : NodeId) : Option NodeFrame := (g.node? id).map Node.frame

def source? (g : Graph) (s : InputSlot) : Option OutputSlot :=
  (g.node? s.node).bind fun node => node.input? s.index

/-- Input slots that read an output, in order of connection. -/
def readers (g : Graph) (o : OutputSlot) : List InputSlot :=
  match g.node? o.node with
  | some node => node.consumers o.index
  | none => []

def HasInput (g : Graph) (s : InputSlot) : Prop :=
  ∃ node, g.node? s.node = some node ∧ s.index < node.inputs.length

def HasOutput (g : Graph) (o : OutputSlot) : Prop :=
  ∃ node, g.node? o.node = some node ∧ o.index < node.outputs.length

section Views

variable {g : Graph}

theorem source?_of_node {id : NodeId} {node : Node} (h : g.node? id = some node) (i : Nat) :
    g.source? ⟨id, i⟩ = node.input? i := by
  simp [source?, h]

theorem readers_of_node {id : NodeId} {node : Node} (h : g.node? id = some node) (i : Nat) :
    g.readers ⟨id, i⟩ = node.consumers i := by
  simp [readers, h]

theorem readers_of_hole {o : OutputSlot} (h : g.node? o.node = none) : g.readers o = [] := by
  simp [readers, h]

theorem source?_of_hole {s : InputSlot} (h : g.node? s.node = none) : g.source? s = none := by
  simp [source?, h]

theorem frame?_eq_some_iff {id : NodeId} {f : NodeFrame} :
    g.frame? id = some f ↔ ∃ node, g.node? id = some node ∧ node.frame = f := by
  simp [frame?]

theorem contains_iff {id : NodeId} : g.contains id = true ↔ ∃ node, g.node? id = some node := by
  simp [contains, Option.isSome_iff_exists]

theorem contains_eq_frame? (id : NodeId) : g.contains id = (g.frame? id).isSome := by
  simp [contains, frame?]

theorem hasInput_of_source? {s : InputSlot} {o : OutputSlot} (h : g.source? s = some o) :
    g.HasInput s := by
  obtain ⟨node, hn, hi⟩ := Option.bind_eq_some_iff.1 h
  refine ⟨node, hn, ?_⟩
  rw [Node.input?] at hi
  by_contra hlt
  simp [List.getElem?_eq_none (Nat.le_of_not_lt hlt)] at hi

theorem hasOutput_of_mem_readers {s : InputSlot} {o : OutputSlot} (h : s ∈ g.readers o) :
    g.HasOutput o := by
  cases hn : g.node? o.node with
  | none => simp [readers_of_hole hn] at h
  | some node =>
    refine ⟨node, hn, ?_⟩
    by_contra hlt
    rw [show o = ⟨o.node, o.index⟩ from rfl, readers_of_node hn, Node.consumers,
      List.getElem?_eq_none (Nat.le_of_not_lt hlt)] at h
    simp at h

theorem hasInput_iff_frame {s : InputSlot} :
    g.HasInput s ↔ ∃ f, g.frame? s.node = some f ∧ s.index < f.inputCount := by
  constructor
  · rintro ⟨node, hn, hlt⟩
    exact ⟨node.frame, by simp [frame?, hn], hlt⟩
  · rintro ⟨f, hf, hlt⟩
    obtain ⟨node, hn, rfl⟩ := frame?_eq_some_iff.1 hf
    exact ⟨node, hn, hlt⟩

theorem hasOutput_iff_frame {o : OutputSlot} :
    g.HasOutput o ↔ ∃ f, g.frame? o.node = some f ∧ o.index < f.descriptors.length := by
  constructor
  · rintro ⟨node, hn, hlt⟩
    exact ⟨node.frame, by simp [frame?, hn], by simpa [Node.frame] using hlt⟩
  · rintro ⟨f, hf, hlt⟩
    obtain ⟨node, hn, rfl⟩ := frame?_eq_some_iff.1 hf
    exact ⟨node, hn, by simpa [Node.frame] using hlt⟩

theorem producer_eq_ok_iff {s : InputSlot} {p : Option OutputSlot} :
    g.producer s = .ok p ↔ g.HasInput s ∧ g.source? s = p := by
  cases hn : g.node? s.node with
  | none => simp [producer, requireNode, hn, HasInput, bind, Except.bind]
  | some node =>
    cases hi : node.inputs[s.index]? with
    | none =>
      have := List.getElem?_eq_none_iff.1 hi
      simp only [producer, requireNode, hn, bind, Except.bind, hi, HasInput]
      constructor
      · intro h
        cases h
      · rintro ⟨⟨_, hm, hlt⟩, _⟩
        cases hm
        omega
    | some q =>
      have := (List.getElem?_eq_some_iff.1 hi).1
      simp [producer, requireNode, hn, bind, Except.bind, HasInput, source?, Node.input?,
        pure, Except.pure, this]

theorem requireOutput_eq_ok_iff {o : OutputSlot} {node : Node} :
    g.requireOutput o = .ok node ↔ g.node? o.node = some node ∧ o.index < node.outputs.length := by
  cases hn : g.node? o.node with
  | none => simp [requireOutput, requireNode, hn, bind, Except.bind]
  | some m =>
    simp only [requireOutput, requireNode, hn, bind, Except.bind]
    split
    · rename_i hlt
      constructor
      · intro h
        cases h
        exact ⟨rfl, hlt⟩
      · rintro ⟨h, -⟩
        cases h
        rfl
    · rename_i hlt
      constructor
      · intro h
        cases h
      · rintro ⟨h, hlt'⟩
        cases h
        exact absurd hlt' hlt

end Views

section Updates

variable (g : Graph)

theorem node?_updateNode (id : NodeId) (f : Node → Node) (k : NodeId) :
    (g.updateNode id f).node? k = if k = id then (g.node? k).map f else g.node? k := by
  by_cases h : k = id
  · subst h
    simp only [updateNode, node?, Array.getElem?_modify, if_true]
    cases g.nodes[k]? <;> rfl
  · simp [updateNode, node?, Array.getElem?_modify, h, Ne.symm h]

@[simp]
theorem size_updateNode (id : NodeId) (f : Node → Node) :
    (g.updateNode id f).nodes.size = g.nodes.size := by
  simp [updateNode]

theorem node?_push (operation : Operation) (name : String) (k : NodeId) :
    (g.push operation name).node? k =
      if k = g.nodes.size then some (Node.fresh g.nodes.size name operation g.nextSeq)
      else g.node? k := by
  by_cases h : k = g.nodes.size
  · simp [push, node?, h]
  · simp [push, node?, Array.getElem?_push, h]

theorem node?_drop (id k : NodeId) :
    (g.drop id).node? k = if k = id then none else g.node? k := by
  by_cases h : k = id
  · subst h
    simp only [drop, node?, Array.getElem?_modify, if_true]
    cases g.nodes[k]? <;> rfl
  · simp [drop, node?, Array.getElem?_modify, h, Ne.symm h]

theorem node?_eq_none_of_size_le {id : NodeId} (h : g.nodes.size ≤ id) : g.node? id = none := by
  simp [node?, Array.getElem?_eq_none h]

@[simp]
theorem frame?_setInput (s : InputSlot) (p : Option OutputSlot) (k : NodeId) :
    (g.setInput s p).frame? k = g.frame? k := by
  rw [frame?, setInput, node?_updateNode]
  split
  · cases hn : g.node? k <;> simp [frame?, hn, Node.frame, Node.setInput]
  · rfl

theorem source?_setInput (s : InputSlot) (p : Option OutputSlot) (hs : g.HasInput s)
    (t : InputSlot) : (g.setInput s p).source? t = if t = s then p else g.source? t := by
  obtain ⟨node, hn, hlt⟩ := hs
  rw [source?, setInput, node?_updateNode]
  by_cases hk : t.node = s.node
  · by_cases hi : t.index = s.index
    · have ht : t = s := by cases t; cases s; simp_all
      subst ht
      simp [hn, Node.setInput, Node.input?, hlt]
    · have ht : t ≠ s := fun h => hi (h ▸ rfl)
      simp [hk, hn, ht, source?, Node.setInput, Node.input?, Ne.symm hi]
  · have ht : t ≠ s := fun h => hk (h ▸ rfl)
    simp [hk, ht, source?]

@[simp]
theorem readers_setInput (s : InputSlot) (p : Option OutputSlot) (o : OutputSlot) :
    (g.setInput s p).readers o = g.readers o := by
  rw [readers, setInput, node?_updateNode]
  by_cases hk : o.node = s.node
  · cases hn : g.node? s.node <;> simp [readers, hk, hn, Node.setInput, Node.consumers]
  · simp [readers, hk]

@[simp]
theorem frame?_updateConsumers (o : OutputSlot) (f : List InputSlot → List InputSlot)
    (k : NodeId) : (g.updateConsumers o f).frame? k = g.frame? k := by
  rw [frame?, updateConsumers, node?_updateNode]
  split
  · cases hn : g.node? k with
    | none => simp [frame?, hn]
    | some node =>
      simp only [frame?, hn, Option.map_some, Node.frame, Node.updateOutput]
      congr 2
      apply List.ext_getElem?
      intro i
      simp only [List.getElem?_map, List.getElem?_modify]
      cases node.outputs[i]? with
      | none => rfl
      | some out =>
        by_cases h : o.index = i <;> simp [h]
  · rfl

@[simp]
theorem source?_updateConsumers (o : OutputSlot) (f : List InputSlot → List InputSlot)
    (t : InputSlot) : (g.updateConsumers o f).source? t = g.source? t := by
  rw [source?, updateConsumers, node?_updateNode]
  split
  · cases hn : g.node? t.node <;> simp_all [source?, Node.updateOutput, Node.input?]
  · rfl

theorem readers_updateConsumers (o : OutputSlot) (f : List InputSlot → List InputSlot)
    (ho : g.HasOutput o) (p : OutputSlot) :
    (g.updateConsumers o f).readers p = if p = o then f (g.readers o) else g.readers p := by
  obtain ⟨node, hn, hlt⟩ := ho
  rw [readers, updateConsumers, node?_updateNode]
  by_cases hk : p.node = o.node
  · by_cases hi : p.index = o.index
    · have hp : p = o := by cases p; cases o; simp_all
      subst hp
      simp [hn, readers, Node.updateOutput, Node.consumers, hlt]
    · have hp : p ≠ o := fun h => hi (h ▸ rfl)
      simp [hk, hn, hp, readers, Node.updateOutput, Node.consumers, Ne.symm hi]
  · have hp : p ≠ o := fun h => hk (h ▸ rfl)
    simp [hk, hp, readers]

@[simp]
theorem size_setInput (s : InputSlot) (p : Option OutputSlot) :
    (g.setInput s p).nodes.size = g.nodes.size := size_updateNode g _ _

@[simp]
theorem size_updateConsumers (o : OutputSlot) (f : List InputSlot → List InputSlot) :
    (g.updateConsumers o f).nodes.size = g.nodes.size := size_updateNode g _ _

end Updates

section Rewiring

variable (g : Graph)

theorem hasInput_congr {g h : Graph} (hf : ∀ k, h.frame? k = g.frame? k) (s : InputSlot) :
    h.HasInput s ↔ g.HasInput s := by
  simp only [hasInput_iff_frame, hf]

theorem hasOutput_congr {g h : Graph} (hf : ∀ k, h.frame? k = g.frame? k) (o : OutputSlot) :
    h.HasOutput o ↔ g.HasOutput o := by
  simp only [hasOutput_iff_frame, hf]

@[simp]
theorem hasInput_setInput {g : Graph} {s t : InputSlot} {p : Option OutputSlot} :
    (g.setInput s p).HasInput t ↔ g.HasInput t :=
  hasInput_congr (frame?_setInput g s p) t

@[simp]
theorem hasOutput_setInput {g : Graph} {s : InputSlot} {p : Option OutputSlot} {o : OutputSlot} :
    (g.setInput s p).HasOutput o ↔ g.HasOutput o :=
  hasOutput_congr (frame?_setInput g s p) o

@[simp]
theorem hasInput_updateConsumers {g : Graph} {o : OutputSlot}
    {f : List InputSlot → List InputSlot} {s : InputSlot} :
    (g.updateConsumers o f).HasInput s ↔ g.HasInput s :=
  hasInput_congr (frame?_updateConsumers g o f) s

@[simp]
theorem hasOutput_updateConsumers {g : Graph} {o p : OutputSlot}
    {f : List InputSlot → List InputSlot} :
    (g.updateConsumers o f).HasOutput p ↔ g.HasOutput p :=
  hasOutput_congr (frame?_updateConsumers g o f) p

@[simp]
theorem frame?_link (o : OutputSlot) (s : InputSlot) (k : NodeId) :
    (g.link o s).frame? k = g.frame? k := by
  simp [link]

theorem source?_link (o : OutputSlot) (s : InputSlot) (hs : g.HasInput s) (t : InputSlot) :
    (g.link o s).source? t = if t = s then some o else g.source? t := by
  rw [link, source?_updateConsumers, source?_setInput g s _ hs]

theorem readers_link (o : OutputSlot) (s : InputSlot) (ho : g.HasOutput o) (p : OutputSlot) :
    (g.link o s).readers p = if p = o then g.readers o ++ [s] else g.readers p := by
  have ho' : (g.setInput s (some o)).HasOutput o := hasOutput_setInput.2 ho
  rw [link, readers_updateConsumers _ o _ ho', readers_setInput, readers_setInput]

@[simp]
theorem frame?_unlink (o : OutputSlot) (s : InputSlot) (k : NodeId) :
    (g.unlink o s).frame? k = g.frame? k := by
  simp [unlink]

theorem source?_unlink (o : OutputSlot) (s : InputSlot) (hs : g.HasInput s) (t : InputSlot) :
    (g.unlink o s).source? t = if t = s then none else g.source? t := by
  rw [unlink, source?_updateConsumers, source?_setInput g s _ hs]

theorem readers_unlink (o : OutputSlot) (s : InputSlot) (ho : g.HasOutput o) (p : OutputSlot) :
    (g.unlink o s).readers p = if p = o then (g.readers o).erase s else g.readers p := by
  have ho' : (g.setInput s none).HasOutput o := hasOutput_setInput.2 ho
  rw [unlink, readers_updateConsumers _ o _ ho', readers_setInput, readers_setInput]

/-- Rewiring a list of slots, one after the other. -/
theorem frame?_setInputs (o : OutputSlot) (slots : List InputSlot) (k : NodeId) :
    (slots.foldl (fun g s => g.setInput s (some o)) g).frame? k = g.frame? k := by
  induction slots generalizing g with
  | nil => rfl
  | cons s rest ih => rw [List.foldl_cons, ih, frame?_setInput]

theorem readers_setInputs (o : OutputSlot) (slots : List InputSlot) (p : OutputSlot) :
    (slots.foldl (fun g s => g.setInput s (some o)) g).readers p = g.readers p := by
  induction slots generalizing g with
  | nil => rfl
  | cons s rest ih => rw [List.foldl_cons, ih, readers_setInput]

theorem source?_setInputs (o : OutputSlot) (slots : List InputSlot)
    (hs : ∀ s ∈ slots, g.HasInput s) (t : InputSlot) :
    (slots.foldl (fun g s => g.setInput s (some o)) g).source? t =
      if t ∈ slots then some o else g.source? t := by
  induction slots generalizing g with
  | nil => simp
  | cons s rest ih =>
    have hrest : ∀ r ∈ rest, (g.setInput s (some o)).HasInput r := fun r hr =>
      hasInput_setInput.2 (hs r (by simp [hr]))
    rw [List.foldl_cons, ih _ hrest, source?_setInput g s _ (hs s (by simp))]
    by_cases hr : t ∈ rest
    · simp [hr]
    · by_cases ht : t = s <;> simp [hr, ht]

@[simp]
theorem frame?_moveConsumers (o p : OutputSlot) (moved : List InputSlot) (k : NodeId) :
    (g.moveConsumers o p moved).frame? k = g.frame? k := by
  simp [moveConsumers, frame?_setInputs]

theorem source?_moveConsumers (o p : OutputSlot) (moved : List InputSlot)
    (hs : ∀ s ∈ moved, g.HasInput s) (t : InputSlot) :
    (g.moveConsumers o p moved).source? t = if t ∈ moved then some p else g.source? t := by
  have hs' : ∀ s ∈ moved, (g.updateConsumers o fun _ => []).HasInput s := fun s h =>
    hasInput_updateConsumers.2 (hs s h)
  rw [moveConsumers, source?_updateConsumers, source?_setInputs _ p moved hs',
    source?_updateConsumers]

theorem readers_moveConsumers (o p : OutputSlot) (moved : List InputSlot) (ho : g.HasOutput o)
    (hp : g.HasOutput p) (hop : o ≠ p) (q : OutputSlot) :
    (g.moveConsumers o p moved).readers q =
      if q = p then g.readers p ++ moved else if q = o then [] else g.readers q := by
  have hp' : (moved.foldl (fun g s => g.setInput s (some p))
      (g.updateConsumers o fun _ => [])).HasOutput p := by
    refine (hasOutput_congr (fun k => ?_) p).2 hp
    rw [frame?_setInputs, frame?_updateConsumers]
  rw [moveConsumers, readers_updateConsumers _ p _ hp', readers_setInputs, readers_setInputs,
    readers_updateConsumers g o _ ho, readers_updateConsumers g o _ ho, if_neg (Ne.symm hop)]

theorem frame?_push (operation : Operation) (name : String) (k : NodeId) :
    (g.push operation name).frame? k =
      if k = g.nodes.size then some (Node.fresh g.nodes.size name operation g.nextSeq).frame
      else g.frame? k := by
  rw [frame?, node?_push]
  split <;> rfl

@[simp]
theorem source?_push (operation : Operation) (name : String) (t : InputSlot) :
    (g.push operation name).source? t = g.source? t := by
  rw [source?, node?_push]
  split
  · rename_i h
    rw [source?_of_hole (node?_eq_none_of_size_le g (Nat.le_of_eq h.symm))]
    simp only [Option.bind_some, Node.input?, Node.fresh, List.getElem?_replicate]
    split <;> rfl
  · rfl

@[simp]
theorem readers_push (operation : Operation) (name : String) (o : OutputSlot) :
    (g.push operation name).readers o = g.readers o := by
  rw [readers, node?_push]
  by_cases h : o.node = g.nodes.size
  · rw [readers_of_hole (node?_eq_none_of_size_le g (Nat.le_of_eq h.symm)), if_pos h]
    simp only [Node.consumers, Node.fresh, List.getElem?_replicate]
    by_cases hi : o.index < operation.kind.numOutputs <;> simp [hi]
  · simp [readers, h]

theorem frame?_drop (id k : NodeId) :
    (g.drop id).frame? k = if k = id then none else g.frame? k := by
  rw [frame?, node?_drop]
  split <;> rfl

theorem source?_drop (id : NodeId) (t : InputSlot) :
    (g.drop id).source? t = if t.node = id then none else g.source? t := by
  rw [source?, node?_drop]
  split <;> rfl

theorem readers_drop (id : NodeId) (o : OutputSlot) :
    (g.drop id).readers o = if o.node = id then [] else g.readers o := by
  rw [readers, node?_drop]
  by_cases h : o.node = id <;> simp [h, readers]

@[simp]
theorem source?_setDescriptor (o : OutputSlot) (d : Descriptor) (t : InputSlot) :
    (g.setDescriptor o d).source? t = g.source? t := by
  rw [source?, setDescriptor, node?_updateNode]
  split
  · cases hn : g.node? t.node <;> simp_all [source?, Node.updateOutput, Node.input?]
  · rfl

@[simp]
theorem readers_setDescriptor (o : OutputSlot) (d : Descriptor) (p : OutputSlot) :
    (g.setDescriptor o d).readers p = g.readers p := by
  rw [readers, setDescriptor, node?_updateNode]
  by_cases hk : p.node = o.node
  · cases hn : g.node? o.node with
    | none => simp [readers, hk, hn]
    | some node =>
      simp only [hk, hn, if_true, Option.map_some, readers, Node.updateOutput, Node.consumers,
        List.getElem?_modify]
      cases node.outputs[p.index]? with
      | none => rfl
      | some out => by_cases h : o.index = p.index <;> simp [h]
  · simp [readers, hk]

theorem frame?_setDescriptor (o : OutputSlot) (d : Descriptor) (k : NodeId) :
    (g.setDescriptor o d).frame? k =
      if k = o.node then
        (g.frame? k).map fun f => { f with descriptors := f.descriptors.set o.index (some d) }
      else g.frame? k := by
  rw [frame?, setDescriptor, node?_updateNode]
  split
  · cases hn : g.node? k with
    | none => simp [frame?, hn]
    | some node =>
      simp only [frame?, hn, Option.map_some, Node.frame, Node.updateOutput]
      congr 2
      apply List.ext_getElem?
      intro i
      simp only [List.getElem?_map, List.getElem?_modify, List.getElem?_set, List.length_map]
      by_cases h : o.index = i
      · subst h
        by_cases hlt : o.index < node.outputs.length <;> simp [hlt]
      · simp [h]
  · rfl

@[simp]
theorem size_setDescriptor (o : OutputSlot) (d : Descriptor) :
    (g.setDescriptor o d).nodes.size = g.nodes.size := size_updateNode g _ _

theorem hasInput_setDescriptor (o : OutputSlot) (d : Descriptor) (s : InputSlot) :
    (g.setDescriptor o d).HasInput s ↔ g.HasInput s := by
  rw [hasInput_iff_frame, hasInput_iff_frame, frame?_setDescriptor]
  split <;> simp

theorem hasOutput_setDescriptor (o : OutputSlot) (d : Descriptor) (p : OutputSlot) :
    (g.setDescriptor o d).HasOutput p ↔ g.HasOutput p := by
  rw [hasOutput_iff_frame, hasOutput_iff_frame, frame?_setDescriptor]
  split <;> simp

theorem updateNode_updateNode (id : NodeId) (f f' : Node → Node) :
    (g.updateNode id f).updateNode id f' = g.updateNode id (f' ∘ f) := by
  simp only [updateNode]
  congr 1
  apply Array.ext_getElem?
  intro i
  simp only [Array.getElem?_modify]
  split
  · simp
  · rfl

/-- Splicing as a sequence of single updates. -/
theorem splice_eq (id : NodeId) (o : OutputSlot) (s : InputSlot) (d : Descriptor) :
    g.splice id o s d =
      ((((g.setInput ⟨id, 0⟩ (some o)).setDescriptor ⟨id, 0⟩ d).updateConsumers ⟨id, 0⟩
        (· ++ [s])).updateConsumers o fun slots => slots.replace s ⟨id, 0⟩).setInput s
          (some ⟨id, 0⟩) := by
  have hw : (g.updateNode id fun node =>
      (node.setInput 0 (some o)).updateOutput 0 fun out =>
        { descriptor := some d, consumers := out.consumers ++ [s] }) =
      ((g.setInput ⟨id, 0⟩ (some o)).setDescriptor ⟨id, 0⟩ d).updateConsumers ⟨id, 0⟩
        (· ++ [s]) := by
    simp only [setInput, setDescriptor, updateConsumers, updateNode_updateNode]
    congr 1
    funext node
    simp [Node.updateOutput, List.modify_modify_eq, Function.comp_def]
  rw [splice, hw]

section Inserting

variable {g} {operation : Operation} (name : String) {o : OutputSlot} {s : InputSlot}
  (d : Descriptor)

theorem HasInput.node_lt {s : InputSlot} (h : g.HasInput s) : s.node < g.nodes.size := by
  obtain ⟨node, hn, -⟩ := h
  by_contra hle
  simp [node?_eq_none_of_size_le g (Nat.le_of_not_lt hle)] at hn

theorem HasOutput.node_lt {o : OutputSlot} (h : g.HasOutput o) : o.node < g.nodes.size := by
  obtain ⟨node, hn, -⟩ := h
  by_contra hle
  simp [node?_eq_none_of_size_le g (Nat.le_of_not_lt hle)] at hn

theorem HasInput.push (operation : Operation) {s : InputSlot} (h : g.HasInput s) :
    (g.push operation name).HasInput s := by
  rw [hasInput_iff_frame, frame?_push, if_neg (Nat.ne_of_lt h.node_lt)]
  exact hasInput_iff_frame.1 h

theorem HasOutput.push (operation : Operation) {o : OutputSlot} (h : g.HasOutput o) :
    (g.push operation name).HasOutput o := by
  rw [hasOutput_iff_frame, frame?_push, if_neg (Nat.ne_of_lt h.node_lt)]
  exact hasOutput_iff_frame.1 h

theorem hasInput_fresh (hin : operation.kind.numInputs = 1) :
    (g.push operation name).HasInput ⟨g.nodes.size, 0⟩ := by
  simp [hasInput_iff_frame, frame?_push, Node.frame, Node.fresh, hin]

theorem hasOutput_fresh (hout : operation.kind.numOutputs = 1) :
    (g.push operation name).HasOutput ⟨g.nodes.size, 0⟩ := by
  simp [hasOutput_iff_frame, frame?_push, Node.frame, Node.fresh, hout]

/-- A fresh node on the edge into `s`: it reads what `s` read, and `s` reads it. -/
theorem source?_splice_push (hin : operation.kind.numInputs = 1) (hs : g.HasInput s)
    (t : InputSlot) :
    ((g.push operation name).splice g.nodes.size o s d).source? t =
      if t = s then some ⟨g.nodes.size, 0⟩ else if t = ⟨g.nodes.size, 0⟩ then some o
      else g.source? t := by
  have hs' : (((((g.push operation name).setInput ⟨g.nodes.size, 0⟩ (some o)).setDescriptor
      ⟨g.nodes.size, 0⟩ d).updateConsumers ⟨g.nodes.size, 0⟩ (· ++ [s])).updateConsumers o
      fun slots => slots.replace s ⟨g.nodes.size, 0⟩).HasInput s := by
    rw [hasInput_updateConsumers, hasInput_updateConsumers, hasInput_setDescriptor,
      hasInput_setInput]
    exact hs.push name operation
  rw [splice_eq, source?_setInput _ _ _ hs', source?_updateConsumers, source?_updateConsumers,
    source?_setDescriptor, source?_setInput _ _ _ (hasInput_fresh name hin), source?_push]

theorem readers_splice_push (hout : operation.kind.numOutputs = 1) (ho : g.HasOutput o)
    (p : OutputSlot) :
    ((g.push operation name).splice g.nodes.size o s d).readers p =
      if p = o then (g.readers o).replace s ⟨g.nodes.size, 0⟩
      else if p = ⟨g.nodes.size, 0⟩ then [s] else g.readers p := by
  have hne : o ≠ ⟨g.nodes.size, 0⟩ := fun h => absurd ho.node_lt (by simp [h])
  have hfresh : g.readers ⟨g.nodes.size, 0⟩ = [] :=
    readers_of_hole (node?_eq_none_of_size_le g (Nat.le_refl _))
  have hn : (((g.push operation name).setInput ⟨g.nodes.size, 0⟩ (some o)).setDescriptor
      ⟨g.nodes.size, 0⟩ d).HasOutput ⟨g.nodes.size, 0⟩ := by
    rw [hasOutput_setDescriptor, hasOutput_setInput]
    exact hasOutput_fresh name hout
  have ho' : ((((g.push operation name).setInput ⟨g.nodes.size, 0⟩ (some o)).setDescriptor
      ⟨g.nodes.size, 0⟩ d).updateConsumers ⟨g.nodes.size, 0⟩ (· ++ [s])).HasOutput o := by
    rw [hasOutput_updateConsumers, hasOutput_setDescriptor, hasOutput_setInput]
    exact ho.push name operation
  rw [splice_eq, readers_setInput, readers_updateConsumers _ _ _ ho',
    readers_updateConsumers _ _ _ hn, readers_updateConsumers _ _ _ hn]
  simp [hne, hfresh]

theorem frame?_splice_push (k : NodeId) :
    ((g.push operation name).splice g.nodes.size o s d).frame? k =
      if k = g.nodes.size then
        some { (Node.fresh g.nodes.size name operation g.nextSeq).frame with
          descriptors := (List.replicate operation.kind.numOutputs none).set 0 (some d) }
      else g.frame? k := by
  rw [splice_eq, frame?_setInput, frame?_updateConsumers, frame?_updateConsumers,
    frame?_setDescriptor, frame?_setInput, frame?_push]
  split <;> simp [Node.frame, Node.fresh]

end Inserting

end Rewiring

end Graph

end LayerGraph
