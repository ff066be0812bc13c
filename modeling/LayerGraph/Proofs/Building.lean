import LayerGraph.Network.Definition
import LayerGraph.Proofs.Checks
import LayerGraph.Proofs.Representation
import Mathlib.Data.List.Nodup

/-!
# Building a definition

A definition builds when its layers can be told apart by name, list what their operations
take, name sources that exist and feed each other in no cycle. The graph has one node for
each layer, at the place of the layer, wired as the layers say.
-/

set_option autoImplicit false

namespace LayerGraph

open Relation
open LayerGraph.Graph

namespace Layer

def Complete (l : Layer) : Prop :=
  l.inputs.length = l.operation.kind.numInputs ∧ l.outputs.length = l.operation.kind.numOutputs

def frame (l : Layer) (i : NodeId) : NodeFrame :=
  { id := i, name := l.name, operation := l.operation, seq := i
    inputCount := l.inputs.length
    descriptors := l.outputs.map some }

end Layer

namespace Definition

def Feeds (d : Definition) (source reader : String) : Prop :=
  ∃ l ∈ d.layers, l.name = reader ∧ ∃ s ∈ l.inputs, s.layer = source

def Offers (d : Definition) (s : LayerSource) : Prop :=
  ∃ p ∈ d.layers, p.name = s.layer ∧ s.slot.toNat < p.outputs.length

structure WellFormed (d : Definition) : Prop where
  names : (d.layers.map (·.name)).Nodup
  complete : ∀ l ∈ d.layers, l.Complete
  offered : ∀ l ∈ d.layers, ∀ s ∈ l.inputs, d.Offers s
  acyclic : ∀ name, ¬ TransGen d.Feeds name name

def Wires (d : Definition) (s : InputSlot) (o : OutputSlot) : Prop :=
  ∃ l source p, d.layers[s.node]? = some l ∧ l.inputs[s.index]? = some source ∧
    d.layers[o.node]? = some p ∧ p.name = source.layer ∧ o.index = source.slot.toNat

/-- The graph that a definition describes: one node for each layer, at the same place, and
the edges that the layers name. -/
structure Describes (d : Definition) (g : Graph) : Prop where
  reachable : g.Reachable
  live : g.live = d.layers.length
  node : ∀ i, g.frame? i = (d.layers[i]?).map (·.frame i)
  connected : ∀ i l k, d.layers[i]? = some l → k < l.inputs.length →
    (g.source? ⟨i, k⟩).isSome = true
  source : ∀ s o, g.source? s = some o ↔ d.Wires s o
  reader : ∀ s o, s ∈ g.readers o ↔ d.Wires s o

end Definition

namespace Edit

variable {α β : Type} {g g' : Graph}

theorem forM_cons (x : α) (rest : List α) (run : α → Edit Unit) :
    (x :: rest).forM run = run x >>= fun _ => rest.forM run := rfl

section Loop

variable {l : List α} {run : α × Nat → Edit Unit} (Inv : Nat → Graph → Prop) {P : α → Prop}

/-- A loop that succeeds: what each turn shows of its item holds of every item, and what
each turn keeps up to its place holds at the end. -/
theorem forM_zipIdx
    (step : ∀ k x g h u, l[k]? = some x → Inv k g → run (x, k) g = .ok u h → P x ∧ Inv (k + 1) h)
    {u : Unit} (hg : Inv 0 g) (h : l.zipIdx.forM run g = .ok u g') :
    (∀ x ∈ l, P x) ∧ Inv l.length g' := by
  suffices hrun : ∀ (done rest : List α) g, l = done ++ rest → Inv done.length g →
      (rest.zipIdx done.length).forM run g = .ok u g' → (∀ x ∈ rest, P x) ∧ Inv l.length g' from
    hrun [] l g rfl hg h
  intro done rest
  induction rest generalizing done with
  | nil =>
    rintro g rfl hg h
    cases h
    simpa using hg
  | cons x rest ih =>
    intro g hl hg h
    rw [List.zipIdx_cons, forM_cons, bind_eq_ok_iff] at h
    obtain ⟨_, next, hx, hrest⟩ := h
    obtain ⟨hP, hnext⟩ := step done.length x g next _ (by simp [hl]) hg hx
    have hlen : (done ++ [x]).length = done.length + 1 := by simp
    rw [← hlen] at hrest hnext
    obtain ⟨hall, hend⟩ := ih (done ++ [x]) next (by simp [hl]) hnext hrest
    exact ⟨List.forall_mem_cons.2 ⟨hP, hall⟩, hend⟩

/-- A loop all of whose turns succeed. -/
theorem exists_forM_zipIdx
    (step : ∀ k x g, l[k]? = some x → Inv k g → ∃ h, run (x, k) g = .ok () h ∧ Inv (k + 1) h)
    (hg : Inv 0 g) : ∃ g', l.zipIdx.forM run g = .ok () g' ∧ Inv l.length g' := by
  suffices hrun : ∀ (done rest : List α) g, l = done ++ rest → Inv done.length g →
      ∃ g', (rest.zipIdx done.length).forM run g = .ok () g' ∧ Inv l.length g' from
    hrun [] l g rfl hg
  intro done rest
  induction rest generalizing done with
  | nil =>
    rintro g rfl hg
    exact ⟨g, rfl, by simpa using hg⟩
  | cons x rest ih =>
    intro g hl hg
    obtain ⟨next, hx, hnext⟩ := step done.length x g (by simp [hl]) hg
    have hlen : (done ++ [x]).length = done.length + 1 := by simp
    rw [← hlen] at hnext
    obtain ⟨g', hrest, hend⟩ := ih (done ++ [x]) next (by simp [hl]) hnext
    rw [hlen] at hrest
    exact ⟨g', by rw [List.zipIdx_cons, forM_cons, bind_ok hx, hrest], hend⟩

theorem forM_eq_forM_zipIdx (l : List α) (run : α → Edit Unit) :
    l.forM run = l.zipIdx.forM fun x => run x.1 := by
  suffices hfrom : ∀ n, l.forM run = (l.zipIdx n).forM fun x => run x.1 from hfrom 0
  induction l with
  | nil => exact fun _ => rfl
  | cons x rest ih =>
    intro n
    rw [List.zipIdx_cons, forM_cons, forM_cons, ih (n + 1)]

end Loop

end Edit

namespace Layer

/-- The node of a layer when its first `k` outputs are described. -/
def frameUpTo (l : Layer) (i : NodeId) (k : Nat) : NodeFrame :=
  { l.frame i with
    descriptors :=
      (List.range l.outputs.length).map fun j => if j < k then l.outputs[j]? else none }

variable {l : Layer} {i : NodeId}

theorem frameUpTo_zero (hl : l.Complete) :
    (Node.fresh i l.name l.operation i).frame = l.frameUpTo i 0 := by
  simp [Node.fresh, Node.frame, frameUpTo, frame, hl.1, hl.2]

theorem frameUpTo_length : l.frameUpTo i l.outputs.length = l.frame i := by
  have hall : ((List.range l.outputs.length).map fun j =>
      if j < l.outputs.length then l.outputs[j]? else none) = l.outputs.map some := by
    apply List.ext_getElem?
    intro j
    by_cases hj : j < l.outputs.length <;> simp [hj]
  rw [frameUpTo, hall]
  rfl

theorem frameUpTo_succ {k : Nat} {d : Descriptor} (hk : l.outputs[k]? = some d) :
    { l.frameUpTo i k with descriptors := (l.frameUpTo i k).descriptors.set k (some d) } =
      l.frameUpTo i (k + 1) := by
  have hset : ((List.range l.outputs.length).map fun j =>
      if j < k then l.outputs[j]? else none).set k (some d) =
        (List.range l.outputs.length).map fun j => if j < k + 1 then l.outputs[j]? else none := by
    apply List.ext_getElem?
    intro j
    rw [List.getElem?_set]
    by_cases hj : k = j
    · subst hj
      obtain ⟨hlt, hd⟩ := List.getElem?_eq_some_iff.1 hk
      simp [hlt, hd]
    · have hiff : j < k + 1 ↔ j < k := by omega
      by_cases hlt : j < l.outputs.length
      · simp only [if_neg hj, List.getElem?_map, List.getElem?_range hlt, Option.map_some, hiff]
      · simp [hj, hlt]
  rw [frameUpTo, hset]
  rfl

end Layer

namespace InputSlot

/-- The slot comes before input `k` of layer `i`. -/
def Before (s : InputSlot) (i k : Nat) : Prop := s.node < i ∨ s.node = i ∧ s.index < k

variable {s : InputSlot} {i k : Nat}

theorem not_before_self : ¬ (⟨i, k⟩ : InputSlot).Before i k := by simp [Before]

theorem before_succ_self : (⟨i, k⟩ : InputSlot).Before i (k + 1) := .inr ⟨rfl, Nat.lt_succ_self k⟩

theorem before_succ (hne : s ≠ ⟨i, k⟩) : s.Before i (k + 1) ↔ s.Before i k := by
  obtain ⟨node, index⟩ := s
  have hne : node = i → index ≠ k := by
    rintro rfl rfl
    exact hne rfl
  simp only [Before]
  grind

theorem before_next (h : s.node = i → s.index < k) : s.Before i k ↔ s.Before (i + 1) 0 := by
  simp only [Before]
  grind

end InputSlot

namespace Definition

structure Added (layers : List Layer) (ids : List (String × NodeId)) (g : Graph) : Prop where
  reachable : g.Reachable
  names : (layers.map (·.name)).Nodup
  complete : ∀ l ∈ layers, l.Complete
  size : g.nodes.size = layers.length
  frame : ∀ i, g.frame? i = (layers[i]?).map (·.frame i)
  source : ∀ s, g.source? s = none
  lookup : ∀ name i, ids.lookup name = some i ↔ ∃ l, layers[i]? = some l ∧ l.name = name

theorem describe_ok {l : Layer} {n : NodeId} {g : Graph} (hg : g.Reachable)
    (hf : g.frame? n = some (l.frameUpTo n 0)) :
    ∃ h, (l.outputs.zipIdx.forM fun (descriptor, index) =>
        Edit.setDescriptor ⟨n, index⟩ descriptor) g = .ok () h ∧
      h.Reachable ∧ h.nodes.size = g.nodes.size ∧ (∀ s, h.source? s = g.source? s) ∧
      ∀ i, h.frame? i = if i = n then some (l.frame n) else g.frame? i := by
  rw [← Layer.frameUpTo_length]
  refine Edit.exists_forM_zipIdx
    (fun k h => h.Reachable ∧ h.nodes.size = g.nodes.size ∧
      (∀ s, h.source? s = g.source? s) ∧
      ∀ i, h.frame? i = if i = n then some (l.frameUpTo n k) else g.frame? i)
    (fun k d h hk ⟨hreach, hsize, hsource, hframe⟩ => ?_) ?_
  · have hout : h.HasOutput ⟨n, k⟩ := by
      rw [hasOutput_iff_frame]
      exact ⟨_, by rw [hframe, if_pos rfl], by
        simpa [Layer.frameUpTo] using (List.getElem?_eq_some_iff.1 hk).1⟩
    have hok := Edit.setDescriptor_ok d hout
    refine ⟨_, hok, ?_, ?_, fun s => ?_, fun i => ?_⟩
    · rw [← Edit.after_ok hok]
      exact .change (.setDescriptor _ _) hreach
    · rw [size_setDescriptor, hsize]
    · rw [source?_setDescriptor, hsource]
    · rw [frame?_setDescriptor, hframe]
      by_cases hi : i = n
      · simp only [hi, if_true, Option.map_some, Layer.frameUpTo_succ hk]
      · simp only [hi, if_false]
  · refine ⟨hg, rfl, fun _ => rfl, fun i => ?_⟩
    split
    · rename_i hi
      rw [hi, hf]
    · rfl

section Adding

variable {layers : List Layer} {ids : List (String × NodeId)} {g g' : Graph} {l : Layer}

theorem Added.empty : Added [] [] Graph.empty where
  reachable := .empty
  names := List.nodup_nil
  complete _ hl := by cases hl
  size := rfl
  frame i := by simp [Graph.empty, frame?, node?]
  source s := by simp [Graph.empty, Graph.source?, node?]
  lookup name i := by simp

theorem Added.lookup_isSome (h : Added layers ids g) {name : String} :
    (ids.lookup name).isSome = true ↔ name ∈ layers.map (·.name) := by
  rw [Option.isSome_iff_exists, List.mem_map]
  constructor
  · rintro ⟨i, hi⟩
    obtain ⟨l, hl, hn⟩ := (h.lookup name i).1 hi
    exact ⟨l, List.mem_of_getElem? hl, hn⟩
  · rintro ⟨l, hl, hn⟩
    obtain ⟨i, hi⟩ := List.mem_iff_getElem?.1 hl
    exact ⟨i, (h.lookup name i).2 ⟨l, hi, hn⟩⟩

theorem getElem?_snoc (layers : List Layer) (l : Layer) (i : Nat) :
    (layers ++ [l])[i]? = if i = layers.length then some l else layers[i]? := by
  split
  · rename_i hi
    simp [hi]
  · rename_i hi
    rcases Nat.lt_or_gt_of_ne hi with hlt | hgt
    · exact List.getElem?_append_left hlt
    · rw [List.getElem?_eq_none (Nat.le_of_lt hgt), List.getElem?_eq_none]
      simpa using Nat.succ_le_of_lt hgt

theorem Added.lookup_cons (h : Added layers ids g) (hname : l.name ∉ layers.map (·.name))
    {name : String} {i : NodeId} :
    ((l.name, layers.length) :: ids).lookup name = some i ↔
      ∃ m, (layers ++ [l])[i]? = some m ∧ m.name = name := by
  have hcons : ((l.name, layers.length) :: ids).lookup name =
      if name = l.name then some layers.length else ids.lookup name := by
    rw [List.lookup_cons]
    by_cases hn : name = l.name
    · simp [hn]
    · simp [hn, beq_false_of_ne hn]
  rw [hcons, getElem?_snoc]
  by_cases hi : i = layers.length
  · subst hi
    by_cases hn : name = l.name
    · simp [hn]
    · have hold : ids.lookup name ≠ some layers.length := by
        intro hlookup
        obtain ⟨m, hm, -⟩ := (h.lookup _ _).1 hlookup
        simp at hm
      simpa [hn, eq_comm] using hold
  · by_cases hn : name = l.name
    · have hnone : ∀ m, layers[i]? = some m → m.name ≠ name := fun m hm hmn =>
        hname (hn ▸ hmn ▸ List.mem_map_of_mem (List.mem_of_getElem? hm))
      simpa [hn, hi, Ne.symm hi] using hnone
    · simp [hn, hi, h.lookup]

/-- A layer is added when its name is new and it is complete. -/
theorem addLayer_ok (h : Added layers ids g) (hname : l.name ∉ layers.map (·.name))
    (hl : l.Complete) : ∃ ids' g', addLayer ids l g = .ok ids' g' ∧
      Added (layers ++ [l]) ids' g' := by
  have hsound := h.reachable.sound
  have hframe : (g.push l.operation l.name).frame? layers.length =
      some (l.frameUpTo layers.length 0) := by
    rw [frame?_push, hsound.nextSeq, h.size, if_pos rfl, Layer.frameUpTo_zero hl]
  have hpush : (g.push l.operation l.name).Reachable := .change (.add _ _) h.reachable
  obtain ⟨g', hok, hreach, hsize, hsource, hframes⟩ := describe_ok hpush hframe
  refine ⟨(l.name, layers.length) :: ids, g', ?_, hreach, ?_, ?_, ?_, fun i => ?_, fun s => ?_,
    fun name i => h.lookup_cons hname⟩
  · have hnew : (ids.lookup l.name).isSome = false := by
      rwa [Bool.eq_false_iff, ne_eq, h.lookup_isSome]
    rw [addLayer, Edit.bind_ok (Edit.add_ok l.operation l.name), h.size]
    simp only [hnew, hl.1, hl.2, Bool.false_eq_true, if_false, ne_eq, not_true_eq_false, or_self]
    exact Edit.bind_ok hok
  · rw [List.map_append, List.nodup_append]
    simpa [h.names] using hname
  · simpa [or_imp, forall_and, hl] using h.complete
  · simp [hsize, Graph.push, h.size]
  · rw [hframes, frame?_push, h.frame, h.size]
    rw [getElem?_snoc]
    split
    · rename_i hi
      rw [hi]
      rfl
    · rfl
  · rw [hsource, source?_push, h.source]

/-- Nothing else is added. -/
theorem of_addLayer {ids' : List (String × NodeId)} (h : Added layers ids g)
    (hok : addLayer ids l g = .ok ids' g') : l.name ∉ layers.map (·.name) ∧ l.Complete := by
  rw [addLayer, Edit.bind_ok (Edit.add_ok l.operation l.name)] at hok
  cases hlookup : (ids.lookup l.name).isSome with
  | true =>
    simp only [hlookup, if_true] at hok
    cases hok
  | false =>
    refine ⟨fun hmem => Bool.eq_false_iff.1 hlookup (h.lookup_isSome.2 hmem), ?_⟩
    by_cases hl : l.outputs.length ≠ l.operation.kind.numOutputs ∨
        l.inputs.length ≠ l.operation.kind.numInputs
    · simp only [hlookup, Bool.false_eq_true, if_false, if_pos hl] at hok
      cases hok
    · obtain ⟨hout, hin⟩ := not_or.1 hl
      exact ⟨not_not.1 hin, not_not.1 hout⟩

/-- Adding layers one after another: it succeeds when no name comes twice and all layers are
complete. -/
theorem added_of_foldlM {ids' : List (String × NodeId)} {rest : List Layer}
    (h : Added layers ids g) (hok : rest.foldlM addLayer ids g = .ok ids' g') :
    Added (layers ++ rest) ids' g' := by
  induction rest generalizing layers ids g with
  | nil =>
    cases hok
    simpa using h
  | cons l rest ih =>
    rw [List.foldlM_cons, Edit.bind_eq_ok_iff] at hok
    obtain ⟨next, g₁, hl, hrest⟩ := hok
    obtain ⟨hname, hcomplete⟩ := of_addLayer h hl
    obtain ⟨ids₁, g₂, hl', hadded⟩ := addLayer_ok h hname hcomplete
    cases hl.symm.trans hl'
    simpa using ih hadded hrest

theorem exists_foldlM (rest : List Layer) (h : Added layers ids g)
    (hnames : ((layers ++ rest).map (·.name)).Nodup) (hcomplete : ∀ l ∈ rest, l.Complete) :
    ∃ ids' g', rest.foldlM addLayer ids g = .ok ids' g' := by
  induction rest generalizing layers ids g with
  | nil => exact ⟨ids, g, rfl⟩
  | cons l rest ih =>
    have hname : l.name ∉ layers.map (·.name) := by
      intro hmem
      rw [List.map_append, List.nodup_append] at hnames
      exact hnames.2.2 _ hmem _ (by simp) rfl
    obtain ⟨hl, hrest⟩ := List.forall_mem_cons.1 hcomplete
    obtain ⟨ids₁, g₁, hok, hadded⟩ := addLayer_ok h hname hl
    obtain ⟨ids', g', hok'⟩ := ih hadded (by simpa using hnames) hrest
    exact ⟨ids', g', by rw [List.foldlM_cons, Edit.bind_ok hok, hok']⟩

end Adding

/-- The graph when the inputs before input `k` of layer `i` are connected. -/
structure Wired (d : Definition) (ids : List (String × NodeId)) (i k : Nat) (g : Graph) :
    Prop where
  reachable : g.Reachable
  size : g.nodes.size = d.layers.length
  frame : ∀ j, g.frame? j = (d.layers[j]?).map (·.frame j)
  source : ∀ s o, g.source? s = some o ↔ s.Before i k ∧ d.Wires s o
  lookup : ∀ name j, ids.lookup name = some j ↔ ∃ l, d.layers[j]? = some l ∧ l.name = name

section Wiring

variable {d : Definition} {ids : List (String × NodeId)} {i k : Nat} {g g' : Graph} {l : Layer}
  {s : LayerSource}

theorem Wired.hasOutput_iff (h : d.Wired ids i k g) {p : NodeId} {j : Nat} :
    g.HasOutput ⟨p, j⟩ ↔ ∃ m, d.layers[p]? = some m ∧ j < m.outputs.length := by
  rw [hasOutput_iff_frame, h.frame]
  cases d.layers[p]? <;> simp [Layer.frame]

theorem Wired.hasInput_iff (h : d.Wired ids i k g) {p : NodeId} {j : Nat} :
    g.HasInput ⟨p, j⟩ ↔ ∃ m, d.layers[p]? = some m ∧ j < m.inputs.length := by
  rw [hasInput_iff_frame, h.frame]
  cases d.layers[p]? <;> simp [Layer.frame]

theorem Wired.unique (h : d.Wired ids i k g) {t : InputSlot} {o o' : OutputSlot}
    (hw : d.Wires t o) (hw' : d.Wires t o') : o = o' := by
  obtain ⟨l, s, p, hl, hs, hp, hname, hindex⟩ := hw
  obtain ⟨l', s', p', hl', hs', hp', hname', hindex'⟩ := hw'
  obtain rfl := Option.some.inj (hl.symm.trans hl')
  obtain rfl := Option.some.inj (hs.symm.trans hs')
  have hnode : o.node = o'.node := Option.some.inj
    (((h.lookup _ _).2 ⟨p, hp, hname⟩).symm.trans ((h.lookup _ _).2 ⟨p', hp', hname'⟩))
  cases o
  cases o'
  simp_all

theorem Wired.link (h : d.Wired ids i k g) {o : OutputSlot} (hw : d.Wires ⟨i, k⟩ o)
    (hc : Edit.CanConnect g o ⟨i, k⟩) : d.Wired ids i (k + 1) (g.link o ⟨i, k⟩) where
  reachable := by
    rw [← Edit.after_ok (Edit.connect_ok hc)]
    exact .change (.connect _ _) h.reachable
  size := by rw [(SameNodes.link g o ⟨i, k⟩).size, h.size]
  frame j := by rw [frame?_link, h.frame]
  source t p := by
    rw [source?_link g o _ hc.input]
    split
    · rename_i ht
      subst ht
      constructor
      · intro hp
        obtain rfl := Option.some.inj hp
        exact ⟨InputSlot.before_succ_self, hw⟩
      · rintro ⟨-, hp⟩
        rw [h.unique hw hp]
    · rename_i ht
      rw [InputSlot.before_succ ht, h.source]
  lookup := h.lookup

theorem of_connectInput (h : d.Wired ids i k g) (hl : d.layers[i]? = some l)
    (hs : l.inputs[k]? = some s) {u : Unit} (hok : connectInput ids l i (s, k) g = .ok u g') :
    d.Offers s ∧ d.Wired ids i (k + 1) g' := by
  rw [connectInput] at hok
  cases hlookup : ids.lookup s.layer with
  | none =>
    simp only [hlookup] at hok
    cases hok
  | some p =>
    simp only [hlookup] at hok
    obtain ⟨m, hm, hname⟩ := (h.lookup _ _).1 hlookup
    have hc := Edit.canConnect_of_connect hok
    obtain ⟨m', hm', hslot⟩ := h.hasOutput_iff.1 hc.output
    obtain rfl := Option.some.inj (hm.symm.trans hm')
    cases hok.symm.trans (Edit.connect_ok hc)
    exact ⟨⟨m, List.mem_of_getElem? hm, hname, hslot⟩, h.link ⟨l, s, m, hl, hs, hm, hname, rfl⟩ hc⟩

def nameAt (d : Definition) (j : NodeId) : String := ((d.layers[j]?).map (·.name)).getD ""

theorem Wires.feeds {t : InputSlot} {o : OutputSlot} (h : d.Wires t o) :
    d.Feeds (d.nameAt o.node) (d.nameAt t.node) := by
  obtain ⟨l, s, p, hl, hs, hp, hname, -⟩ := h
  refine ⟨l, List.mem_of_getElem? hl, by simp [nameAt, hl], s, List.mem_of_getElem? hs, ?_⟩
  simp [nameAt, hp, hname]

theorem Wired.feeds_of_path (h : d.Wired ids i k g) {a b : NodeId}
    (hp : ReflTransGen g.Edge a b) : ReflTransGen d.Feeds (d.nameAt a) (d.nameAt b) := by
  refine hp.lift d.nameAt ?_
  rintro a b ⟨j, o, ho, rfl⟩
  exact ((h.source _ _).1 ho).2.feeds

/-- An input can be connected unless that closes a cycle of layers. -/
theorem connectInput_ok (hd : d.WellFormed) (h : d.Wired ids i k g) (hl : d.layers[i]? = some l)
    (hs : l.inputs[k]? = some s) :
    ∃ g', connectInput ids l i (s, k) g = .ok () g' ∧ d.Wired ids i (k + 1) g' := by
  obtain ⟨m, hm, hname, hslot⟩ :=
    hd.offered l (List.mem_of_getElem? hl) s (List.mem_of_getElem? hs)
  obtain ⟨p, hp⟩ := List.mem_iff_getElem?.1 hm
  have hw : d.Wires ⟨i, k⟩ ⟨p, s.slot.toNat⟩ := ⟨l, s, m, hl, hs, hp, hname, rfl⟩
  have hc : Edit.CanConnect g ⟨p, s.slot.toNat⟩ ⟨i, k⟩ := by
    refine ⟨h.hasOutput_iff.2 ⟨m, hp, hslot⟩,
      h.hasInput_iff.2 ⟨l, hl, (List.getElem?_eq_some_iff.1 hs).1⟩, ?_, ?_⟩
    · rw [Option.eq_none_iff_forall_ne_some]
      intro o ho
      exact InputSlot.not_before_self ((h.source _ _).1 ho).1
    · rw [Bool.eq_false_iff, ne_eq, h.reachable.sound.reaches_iff]
      intro hpath
      exact hd.acyclic _ (.tail' (h.feeds_of_path hpath) hw.feeds)
  refine ⟨_, ?_, h.link hw hc⟩
  rw [connectInput, (h.lookup _ _).2 ⟨m, hp, hname⟩]
  exact Edit.connect_ok hc

theorem Wired.next (h : d.Wired ids i l.inputs.length g) (hl : d.layers[i]? = some l) :
    d.Wired ids (i + 1) 0 g := by
  refine ⟨h.reachable, h.size, h.frame, fun t o => ?_, h.lookup⟩
  rw [h.source]
  refine and_congr_left fun hw => InputSlot.before_next ?_
  rintro rfl
  obtain ⟨l', s, _, hl', hs, -⟩ := hw
  obtain rfl := Option.some.inj (hl.symm.trans hl')
  exact (List.getElem?_eq_some_iff.1 hs).1

theorem of_connectLayer (h : d.Wired ids i 0 g) (hl : d.layers[i]? = some l) {u : Unit}
    (hok : connectLayer ids l g = .ok u g') :
    (∀ s ∈ l.inputs, d.Offers s) ∧ d.Wired ids (i + 1) 0 g' := by
  rw [connectLayer, (h.lookup _ _).2 ⟨l, hl, rfl⟩] at hok
  obtain ⟨hoffers, hwired⟩ := Edit.forM_zipIdx (d.Wired ids i)
    (fun k s g g' u hs h hok => of_connectInput h hl hs hok) h hok
  exact ⟨hoffers, hwired.next hl⟩

theorem connectLayer_ok (hd : d.WellFormed) (h : d.Wired ids i 0 g)
    (hl : d.layers[i]? = some l) :
    ∃ g', connectLayer ids l g = .ok () g' ∧ d.Wired ids (i + 1) 0 g' := by
  rw [connectLayer, (h.lookup _ _).2 ⟨l, hl, rfl⟩]
  obtain ⟨g', hok, hwired⟩ := Edit.exists_forM_zipIdx (d.Wired ids i)
    (fun k s g hs h => connectInput_ok hd h hl hs) h
  exact ⟨g', hok, hwired.next hl⟩

theorem Added.wired (h : Added d.layers ids g) : d.Wired ids 0 0 g :=
  ⟨h.reachable, h.size, h.frame, by simp [h.source, InputSlot.Before], h.lookup⟩

theorem Wired.describes (h : d.Wired ids d.layers.length 0 g)
    (hoffered : ∀ l ∈ d.layers, ∀ s ∈ l.inputs, d.Offers s) : d.Describes g := by
  have hsound := h.reachable.sound
  have hsource : ∀ s o, g.source? s = some o ↔ d.Wires s o := by
    intro s o
    rw [h.source, and_iff_right_iff_imp]
    rintro ⟨l, _, _, hl, -⟩
    exact .inl (List.getElem?_eq_some_iff.1 hl).1
  refine ⟨h.reachable, ?_, h.frame, fun i l k hl hk => ?_, hsource, fun s o => ?_⟩
  · rw [hsound.live, length_liveNodes, h.size, List.countP_eq_length.2, List.length_range]
    intro j hj
    rw [contains_eq_frame?, h.frame, List.getElem?_eq_getElem (List.mem_range.1 hj)]
    rfl
  · have hs := List.getElem?_eq_getElem hk
    obtain ⟨p, hp, hname, -⟩ :=
      hoffered l (List.mem_of_getElem? hl) _ (List.mem_of_getElem? hs)
    obtain ⟨j, hj⟩ := List.mem_iff_getElem?.1 hp
    have hwires : d.Wires ⟨i, k⟩ ⟨j, (l.inputs[k]).slot.toNat⟩ :=
      ⟨l, _, p, hl, hs, hj, hname, rfl⟩
    rw [(hsource _ _).2 hwires]
    rfl
  · rw [← hsound.linked.source_iff, hsource]

end Wiring

section Cycles

variable {d : Definition} {g : Graph}

variable (hg : d.Describes g) (hnames : (d.layers.map (·.name)).Nodup)
  (hoffered : ∀ l ∈ d.layers, ∀ s ∈ l.inputs, d.Offers s)

include hg hnames hoffered

theorem edge_of_feeds {a b : String} (h : d.Feeds a b) {i : Nat} {l : Layer}
    (hi : d.layers[i]? = some l) (hl : l.name = b) :
    ∃ j m, d.layers[j]? = some m ∧ m.name = a ∧ g.Edge j i := by
  obtain ⟨l', hl', rfl, s, hs, rfl⟩ := h
  obtain ⟨i', hi'⟩ := List.mem_iff_getElem?.1 hl'
  obtain rfl := index_unique_of_nodup hnames hi hi' hl
  obtain ⟨k, hk⟩ := List.mem_iff_getElem?.1 hs
  obtain ⟨m, hm, hname, -⟩ := hoffered l' hl' s hs
  obtain ⟨j, hj⟩ := List.mem_iff_getElem?.1 hm
  refine ⟨j, m, hj, hname, k, ⟨j, s.slot.toNat⟩, ?_, rfl⟩
  exact (hg.source _ _).2 ⟨l', s, m, hi', hk, hj, hname, rfl⟩

theorem path_of_feeds {a b : String} (h : TransGen d.Feeds a b) {i : Nat} {l : Layer}
    (hi : d.layers[i]? = some l) (hl : l.name = b) :
    ∃ j m, d.layers[j]? = some m ∧ m.name = a ∧ TransGen g.Edge j i := by
  induction h generalizing i l with
  | single hab =>
    obtain ⟨j, m, hj, hm, hedge⟩ := edge_of_feeds hg hnames hoffered hab hi hl
    exact ⟨j, m, hj, hm, .single hedge⟩
  | tail _ hbc ih =>
    obtain ⟨j, m, hj, hm, hedge⟩ := edge_of_feeds hg hnames hoffered hbc hi hl
    obtain ⟨j', m', hj', hm', hpath⟩ := ih hj hm
    exact ⟨j', m', hj', hm', hpath.tail hedge⟩

/-- The layers of a graph that was wired feed each other in no cycle. -/
theorem Describes.acyclic (name : String) : ¬ TransGen d.Feeds name name := by
  intro hcycle
  obtain ⟨b, -, l, hl, hname, -⟩ := (TransGen.tail'_iff).1 hcycle
  obtain ⟨i, hi⟩ := List.mem_iff_getElem?.1 hl
  obtain ⟨j, m, hj, hm, hpath⟩ := path_of_feeds hg hnames hoffered hcycle hi hname
  obtain rfl := index_unique_of_nodup hnames hi hj (hname.trans hm.symm)
  exact hg.reachable.sound.acyclic i hpath

end Cycles

theorem build_eq_ok_iff {d : Definition} {g : Graph} :
    d.build = .ok g ↔ ∃ ids h, d.layers.foldlM addLayer [] Graph.empty = .ok ids h ∧
      d.layers.forM (connectLayer ids) h = .ok () g := by
  rw [← Edit.bind_eq_ok_iff]
  change d.build = .ok g ↔ d.assemble Graph.empty = .ok () g
  rw [build]
  cases d.assemble Graph.empty <;> simp

theorem of_build {d : Definition} {g : Graph} (h : d.build = .ok g) :
    d.WellFormed ∧ d.Describes g := by
  obtain ⟨ids, g₀, hadd, hconnect⟩ := build_eq_ok_iff.1 h
  have hadded : Added d.layers ids g₀ := added_of_foldlM Added.empty hadd
  rw [Edit.forM_eq_forM_zipIdx] at hconnect
  obtain ⟨hoffered, hwired⟩ := Edit.forM_zipIdx (fun i => d.Wired ids i 0)
    (fun i l g g' u hl h hok => of_connectLayer h hl hok) hadded.wired hconnect
  have hg := hwired.describes hoffered
  exact ⟨⟨hadded.names, hadded.complete, hoffered, hg.acyclic hadded.names hoffered⟩, hg⟩

theorem exists_build {d : Definition} (hd : d.WellFormed) : ∃ g, d.build = .ok g := by
  obtain ⟨ids, g₀, hadd⟩ := exists_foldlM d.layers Added.empty hd.names hd.complete
  have hadded : Added d.layers ids g₀ := added_of_foldlM Added.empty hadd
  have hloop : ∃ g, (d.layers.zipIdx.forM fun l => connectLayer ids l.1) g₀ = .ok () g ∧
      d.Wired ids d.layers.length 0 g :=
    Edit.exists_forM_zipIdx (fun i => d.Wired ids i 0)
      (fun i l g hl h => connectLayer_ok hd h hl) hadded.wired
  rw [← Edit.forM_eq_forM_zipIdx] at hloop
  obtain ⟨g, hconnect, -⟩ := hloop
  exact ⟨g, build_eq_ok_iff.2 ⟨ids, g₀, hadd, hconnect⟩⟩

/-- The well-formed definitions build, and no others, and what is built is what they
describe. -/
theorem build_iff_wellFormed (d : Definition) : ((∃ g, d.build = .ok g) ↔ d.WellFormed) ∧
    ∀ g, d.build = .ok g → d.Describes g :=
  ⟨⟨fun ⟨_, h⟩ => (of_build h).1, exists_build⟩, fun _ h => (of_build h).2⟩

def strip : Descriptor := ⟨⟨[4], by decide, by decide, by decide⟩, .float16, none, rfl⟩

/-- Every layer stands before those it reads, and one reads the same output twice. -/
def backwards : Definition :=
  ⟨[⟨"y", .output 0, [⟨"sum", 0⟩], []⟩, ⟨"sum", .addition, [⟨"x", 0⟩, ⟨"x", 0⟩], [strip]⟩,
    ⟨"x", .input 0, [], [strip]⟩]⟩

theorem build_iff_wellFormed_backwards : backwards.WellFormed ∧
    ∃ g, backwards.build = .ok g ∧ backwards.Describes g ∧ g.live = 3 ∧
      g.source? ⟨1, 0⟩ = some ⟨2, 0⟩ ∧ g.source? ⟨1, 1⟩ = some ⟨2, 0⟩ := by
  have hok := eq_ok_get (show backwards.build.toOption.isSome = true by decide +kernel)
  obtain ⟨hiff, hdescribes⟩ := build_iff_wellFormed backwards
  have hg := hdescribes _ hok
  have hwires (k : Nat) (hk : (⟨"sum", .addition, [⟨"x", 0⟩, ⟨"x", 0⟩], [strip]⟩ :
      Layer).inputs[k]? = some ⟨"x", 0⟩) : backwards.Wires ⟨1, k⟩ ⟨2, 0⟩ :=
    ⟨_, _, _, rfl, hk, rfl, rfl, rfl⟩
  exact ⟨hiff.1 ⟨_, hok⟩, _, hok, hg, hg.live, (hg.source _ _).2 (hwires 0 rfl),
    (hg.source _ _).2 (hwires 1 rfl)⟩

end Definition

end LayerGraph
