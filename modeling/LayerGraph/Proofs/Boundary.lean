import LayerGraph.Proofs.Typing
import Mathlib.Data.List.Pairwise

/-!
# Bindings of a graph

Each side of the binding table lists the boundary nodes of its kind in order of
insertion, with the descriptor of the tensor they stand for. No name occurs twice.
-/

set_option autoImplicit false

namespace LayerGraph

/-- The only item that passes a test, with its place. -/
theorem find?_zipIdx_eq_some {α : Type} {l : List α} {p : α → Bool} {j : Nat} {a : α}
    (hj : l[j]? = some a) (hp : p a = true)
    (honly : ∀ i b, l[i]? = some b → p b = true → i = j) :
    (l.zipIdx.find? fun (b, _) => p b) = some (a, j) := by
  have hmem : (a, j) ∈ l.zipIdx := List.mem_zipIdx_iff_getElem?.2 hj
  cases hf : l.zipIdx.find? fun (b, _) => p b with
  | none => exact absurd hp (by simpa using List.find?_eq_none.1 hf _ hmem)
  | some e =>
    obtain ⟨b, i⟩ := e
    have hi := List.mem_zipIdx_iff_getElem?.1 (List.mem_of_find?_eq_some hf)
    have hb : p b = true := by simpa using List.find?_some hf
    obtain rfl := honly i b hi hb
    rw [Option.some.inj (hj.symm.trans hi)]

def Direction.kind : Direction → OperationKind
  | .input => .input
  | .output => .output

namespace BindingTable

def add (table : BindingTable) (entry : Direction × Binding) : Except GraphError BindingTable :=
  match entry.1 with
  | .input => do return { table with inputs := ← Binding.append .input .input table.inputs entry.2 }
  | .output => do
    return { table with outputs := ← Binding.append .output .output table.outputs entry.2 }

def sideOf (direction : Direction) (entries : List (Direction × Binding)) : List Binding :=
  entries.filterMap fun entry => if entry.1 = direction then some entry.2 else none

variable {table result : BindingTable} {entry : Direction × Binding} {direction : Direction}

theorem append_eq_ok_iff {kind : OperationKind} {bindings appended : List Binding} {b : Binding} :
    Binding.append kind direction bindings b = .ok appended ↔
      (∀ other ∈ bindings, other.id ≠ b.id) ∧ (∀ other ∈ bindings, other.name ≠ b.name) ∧
        appended = bindings ++ [b] := by
  simp only [Binding.append, ite_error_eq_ok_iff, List.any_eq_true, beq_iff_eq, not_exists, not_and,
    Except.ok.injEq, @eq_comm _ appended]

theorem side_add (h : table.add entry = .ok result) (d : Direction) :
    result.side d = table.side d ++ sideOf d [entry] ∧
      ∀ other ∈ table.side entry.1, other.name ≠ entry.2.name := by
  obtain ⟨direction, b⟩ := entry
  cases direction with
  | input =>
    obtain ⟨inputs, hi, ht⟩ := except_bind_eq_ok_iff.1 h
    obtain ⟨-, hnames, rfl⟩ := append_eq_ok_iff.1 hi
    cases ht
    cases d <;> simpa [side, sideOf] using hnames
  | output =>
    obtain ⟨outputs, ho, ht⟩ := except_bind_eq_ok_iff.1 h
    obtain ⟨-, hnames, rfl⟩ := append_eq_ok_iff.1 ho
    cases ht
    cases d <;> simpa [side, sideOf] using hnames

theorem side_foldlM {entries : List (Direction × Binding)}
    (h : entries.foldlM add table = .ok result) (d : Direction) :
    result.side d = table.side d ++ sideOf d entries ∧
      (((table.side d).map (·.name)).Nodup → ((result.side d).map (·.name)).Nodup) := by
  induction entries generalizing table with
  | nil =>
    cases h
    simp [sideOf]
  | cons entry rest ih =>
    rw [List.foldlM_cons, except_bind_eq_ok_iff] at h
    obtain ⟨next, hnext, hrest⟩ := h
    obtain ⟨hside, hnew⟩ := side_add hnext d
    obtain ⟨hresult, hnodup⟩ := ih hrest
    have hcons : sideOf d (entry :: rest) = sideOf d [entry] ++ sideOf d rest := by
      simp only [sideOf, ← List.filterMap_append, List.singleton_append]
    refine ⟨by rw [hresult, hside, hcons, List.append_assoc], fun hn => hnodup ?_⟩
    rw [hside, List.map_append, List.nodup_append]
    by_cases hd : entry.1 = d
    · subst hd
      refine ⟨hn, by simp [sideOf], ?_⟩
      simpa [sideOf] using hnew
    · simpa [sideOf, hd] using hn

/-- Bindings that one table can hold: of two sides, or of two ids and two names. -/
def Apart (a b : Direction × Binding) : Prop :=
  a.1 = b.1 → a.2.id ≠ b.2.id ∧ a.2.name ≠ b.2.name

theorem Apart.symm {a b : Direction × Binding} (h : Apart a b) : Apart b a := fun hsame =>
  ⟨Ne.symm (h hsame.symm).1, Ne.symm (h hsame.symm).2⟩

theorem exists_add_iff : (∃ result, table.add entry = .ok result) ↔
    ∀ other ∈ table.side entry.1, other.id ≠ entry.2.id ∧ other.name ≠ entry.2.name := by
  obtain ⟨direction, b⟩ := entry
  cases direction <;>
    simp [add, side, except_bind_eq_ok_iff, append_eq_ok_iff, forall_and, pure, Except.pure]

theorem exists_foldlM_add_iff {entries : List (Direction × Binding)} :
    (∃ result, entries.foldlM add table = .ok result) ↔ entries.Pairwise Apart ∧
      ∀ e ∈ entries, ∀ other ∈ table.side e.1, other.id ≠ e.2.id ∧ other.name ≠ e.2.name := by
  induction entries generalizing table with
  | nil => simpa using ⟨table, rfl⟩
  | cons entry rest ih =>
    have hside : ∀ {next}, table.add entry = .ok next → ∀ d other, other ∈ next.side d ↔
        other ∈ table.side d ∨ d = entry.1 ∧ other = entry.2 := by
      intro next hnext d other
      rw [(side_add hnext d).1, List.mem_append]
      by_cases hd : entry.1 = d
      · simp [sideOf, hd]
      · simp [sideOf, hd, Ne.symm hd]
    rw [List.pairwise_cons, List.forall_mem_cons]
    constructor
    · rintro ⟨result, h⟩
      rw [List.foldlM_cons, except_bind_eq_ok_iff] at h
      obtain ⟨next, hnext, hrest⟩ := h
      obtain ⟨hpairs, hall⟩ := ih.1 ⟨result, hrest⟩
      refine ⟨⟨fun e he hsame => ?_, hpairs⟩, exists_add_iff.1 ⟨next, hnext⟩,
        fun e he other ho => ?_⟩
      · exact hall e he entry.2 ((hside hnext _ _).2 (.inr ⟨hsame.symm, rfl⟩))
      · exact hall e he other ((hside hnext _ _).2 (.inl ho))
    · rintro ⟨⟨hapart, hpairs⟩, hentry, hall⟩
      obtain ⟨next, hnext⟩ := exists_add_iff.2 hentry
      have hrest : ∃ result, rest.foldlM add next = .ok result := by
        refine ih.2 ⟨hpairs, fun e he other ho => ?_⟩
        rcases (hside hnext _ _).1 ho with ho | ⟨hsame, rfl⟩
        · exact hall e he other ho
        · exact hapart e he hsame.symm
      obtain ⟨result, hrest⟩ := hrest
      exact ⟨result, by rw [List.foldlM_cons, hnext]; exact hrest⟩

end BindingTable

namespace Graph

variable {g : Graph} {table : BindingTable} {id : NodeId} {node : Node}

def boundary? (g : Graph) (node : Node) : Option (Direction × Binding) :=
  match node.operation with
  | .input id => (node.outputDescriptor? 0).map fun d => (.input, ⟨node.name, id, d, node.id⟩)
  | .output id =>
    (g.inputDescriptor? ⟨node.id, 0⟩).map fun d => (.output, ⟨node.name, id, d, node.id⟩)
  | _ => none

theorem boundary?_spec {d : Direction} {b : Binding} (h : g.boundary? node = some (d, b)) :
    b.name = node.name ∧ b.node = node.id ∧ node.kind = d.kind := by
  unfold boundary? at h
  split at h <;> simp at h <;> rename_i hop
  all_goals
    obtain ⟨_, _, rfl, rfl⟩ := h
    exact ⟨rfl, rfl, by rw [Node.kind, hop]; rfl⟩

theorem bindNode_eq (h : node.kind = .input ∨ node.kind = .output → (g.boundary? node).isSome) :
    g.bindNode table node = match g.boundary? node with
      | some entry => table.add entry
      | none => .ok table := by
  unfold bindNode boundary? at *
  cases hop : node.operation with
  | input id =>
    simp only [hop, Node.kind, Operation.kind, true_or, forall_const, Option.isSome_map] at h
    obtain ⟨d, hd⟩ := Option.isSome_iff_exists.1 h
    simp [hd, BindingTable.add]
  | output id =>
    simp only [hop, Node.kind, Operation.kind, or_true, forall_const, Option.isSome_map] at h
    obtain ⟨d, hd⟩ := Option.isSome_iff_exists.1 h
    simp [hd, BindingTable.add]
  | _ => rfl

theorem foldlM_bindNode {nodes : List Node} (t : BindingTable)
    (h : ∀ node ∈ nodes,
      node.kind = .input ∨ node.kind = .output → (g.boundary? node).isSome) :
    nodes.foldlM g.bindNode t = (nodes.filterMap g.boundary?).foldlM BindingTable.add t := by
  induction nodes generalizing t with
  | nil => rfl
  | cons node rest ih =>
    have ih := fun t => ih t fun m hm => h m (List.mem_cons_of_mem _ hm)
    rw [List.foldlM_cons, bindNode_eq (h node List.mem_cons_self)]
    cases hb : g.boundary? node with
    | none =>
      rw [List.filterMap_cons_none hb]
      exact ih t
    | some entry =>
      rw [List.filterMap_cons_some hb, List.foldlM_cons]
      exact congrArg _ (funext ih)

theorem Typed.boundary? {reads : List Descriptor} {written : Descriptor}
    (h : g.Typed id node.operation reads written) (hg : g.Sound) (hn : g.node? id = some node) :
    g.boundary? node = match node.operation with
      | .input b => some (.input, ⟨node.name, b, written, id⟩)
      | .output b => some (.output, ⟨node.name, b, written, id⟩)
      | _ => none := by
  have hid := hg.node_id id node hn
  unfold Graph.boundary?
  cases hop : node.operation with
  | input b =>
    have hw := h.written_eq (by simp [hop, Operation.kind])
    rw [outputDescriptor?_of_node hn] at hw
    simp [hw, hid]
  | output b =>
    have hkind : node.operation.kind = .output := by rw [hop]; rfl
    have hr := h.reads_eq (by simp [hkind])
    rw [h.takes.reads_of_boundary (.inr hkind), hkind] at hr
    have hr : g.inputDescriptor? ⟨id, 0⟩ = some written := by
      simpa [OperationKind.numInputs] using hr
    simp [hr, hid]
  | _ => rfl

/-- The table is built from the boundary nodes alone. -/
theorem bindingTable_eq (hg : g.Sound) (htyped : ∀ id node, g.node? id = some node →
    ∃ reads written, g.Typed id node.operation reads written) :
    g.bindingTable = (g.liveNodes.filterMap g.boundary?).foldlM BindingTable.add .empty := by
  apply foldlM_bindNode
  intro node hm hk
  obtain ⟨id, hn⟩ := mem_liveNodes.1 hm
  obtain ⟨_, _, h⟩ := htyped id node hn
  rw [h.boundary? hg hn]
  cases hop : node.operation <;> simp_all [Node.kind, Operation.kind]

def BindsApart (g : Graph) (i j : NodeId) : Prop :=
  ∀ node, g.node? i = some node → ∀ other, g.node? j = some other →
    ∀ a, g.boundary? node = some a → ∀ b, g.boundary? other = some b → BindingTable.Apart a b

instance : Std.Symm g.BindsApart :=
  ⟨fun _ _ h node hn other ho a ha b hb => (h other ho node hn b hb a ha).symm⟩

/-- A graph has a table when the bindings of any two nodes fit into one. -/
theorem exists_bindingTable_iff (hg : g.Sound) (htyped : ∀ id node, g.node? id = some node →
    ∃ reads written, g.Typed id node.operation reads written) :
    (∃ table, g.bindingTable = .ok table) ↔ ∀ i j, i ≠ j → g.BindsApart i j := by
  have hempty : ∀ d, BindingTable.empty.side d = [] := fun d => by cases d <;> rfl
  rw [bindingTable_eq hg htyped, BindingTable.exists_foldlM_add_iff, liveNodes_eq,
    List.pairwise_filterMap, List.pairwise_filterMap]
  simp only [hempty, List.not_mem_nil, false_implies, implies_true, and_true]
  change (List.range g.nodes.size).Pairwise g.BindsApart ↔ _
  constructor
  · intro h i j hij node hi other hj
    have hlt : ∀ {k m}, g.node? k = some m → k ∈ List.range g.nodes.size := fun hk =>
      List.mem_range.2 (lt_size_of_contains (contains_iff.2 ⟨_, hk⟩))
    exact h.forall (hlt hi) (hlt hj) hij node hi other hj
  · exact fun h => List.nodup_range.pairwise_of_forall_ne fun i _ j _ hij => h i j hij

section Table

variable {d : Direction} {b : Binding} (hv : g.Valid table)

include hv

theorem Valid.side_foldlM :
    table.side d = BindingTable.sideOf d (g.liveNodes.filterMap g.boundary?) ∧
      ((table.side d).map (·.name)).Nodup := by
  have hfold := hv.bindings
  rw [bindingTable_eq hv.sound hv.typed] at hfold
  have hempty : BindingTable.empty.side d = [] := by cases d <;> rfl
  have hside := BindingTable.side_foldlM hfold d
  simp only [hempty, List.nil_append, List.map_nil, List.nodup_nil, forall_const] at hside
  exact hside

theorem Valid.mem_side_iff : b ∈ table.side d ↔
    ∃ node, g.node? b.node = some node ∧ g.boundary? node = some (d, b) := by
  rw [hv.side_foldlM.1, BindingTable.sideOf, List.mem_filterMap]
  constructor
  · rintro ⟨⟨d', b'⟩, hm, hb⟩
    obtain ⟨rfl, rfl⟩ : d' = d ∧ b' = b := by simpa using hb
    obtain ⟨node, hm, hbound⟩ := List.mem_filterMap.1 hm
    obtain ⟨id, hn⟩ := mem_liveNodes.1 hm
    rw [(boundary?_spec hbound).2.1, hv.sound.node_id id node hn]
    exact ⟨node, hn, hbound⟩
  · rintro ⟨node, hn, hbound⟩
    exact ⟨(d, b), List.mem_filterMap.2 ⟨node, mem_liveNodes.2 ⟨_, hn⟩, hbound⟩, by simp⟩

theorem Valid.boundary?_of_index {j : Nat} (hj : (table.side d)[j]? = some b)
    (hid : b.node = id) (hn : g.node? id = some node) : g.boundary? node = some (d, b) := by
  obtain ⟨n, hn', hb⟩ := hv.mem_side_iff.1 (List.mem_of_getElem? hj)
  rw [hid, hn] at hn'
  rwa [← Option.some.inj hn'] at hb

/-- A binding is known by its name, and by its node. -/
theorem Valid.index_unique {i j : Nat} {a : Binding} (hi : (table.side d)[i]? = some a)
    (hj : (table.side d)[j]? = some b) (h : a.name = b.name ∨ a.node = b.node) : i = j := by
  have hname : a.name = b.name := by
    rcases h with h | h
    · exact h
    · obtain ⟨n, hn, hb⟩ := hv.mem_side_iff.1 (List.mem_of_getElem? hj)
      have ha := hv.boundary?_of_index hi h hn
      rw [(Prod.mk.inj (Option.some.inj (ha.symm.trans hb))).2]
  exact index_unique_of_nodup hv.side_foldlM.2 hi hj hname

end Table

end Graph

end LayerGraph
