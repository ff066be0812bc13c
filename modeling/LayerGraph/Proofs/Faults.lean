import LayerGraph.Proofs.Checks
import LayerGraph.Graph.Validity

/-!
# What validation reports

Every fault that validation finds is a fault of one of the nodes, named by it, but for two: a
walk over the graph that misses nodes, and a shape that an axis reordering fails to give.
-/

set_option autoImplicit false

namespace LayerGraph

inductive GraphError.About (node : Node) : GraphError → Prop where
  | dangling (index : Nat) : About node (.danglingInput node.label index)
  | undescribed (index : Nat) : About node (.missingDescriptor node.label index)
  | invalid (reason : String) : About node (.invalidOperation node.label reason)
  | sameId (id : Int32) (h : node.operation = .input id ∨ node.operation = .output id) :
    About node (.duplicateBindingId node.kind id)
  | sameName (direction : Direction) : About node (.duplicateBoundaryName direction node.name)

/-- A fault of the dimensions that the axes of some shape are moved or read to. -/
def DescriptorError.Inferred (error : DescriptorError) : Prop :=
  ∃ (p : Permutation) (s : Shape),
    p.permuteShape? s = some (.error error) ∨ p.transposeShape? s = some (.error error)

namespace Graph

variable {g : Graph} {node : Node} {e : GraphError}

theorem about_of_checkComplete (h : checkComplete node = .error e) : e.About node := by
  rw [checkComplete] at h
  split at h
  · cases h
    exact .dangling _
  · split at h
    · cases h
      exact .undescribed _
    · cases h

theorem about_of_checkTypes {output : Descriptor} (h : g.checkTypes node output = .error e) :
    e.About node := by
  rw [checkTypes] at h
  split at h
  · cases h
  · cases h
    exact .invalid _

/-- A reordering is refused for its types, or for its shape: because the output has another one,
or because there is none. -/
theorem about_of_checkShape {reason : String} {expected : Option (Except DescriptorError Shape)}
    {output : Descriptor} (hexpected : ∀ d, expected = some (.error d) → d.Inferred)
    (h : (checkShape node reason expected output.shape >>= fun _ => g.checkTypes node output) =
      .error e) : e.About node ∨ ∃ d, d.Inferred ∧ e = .descriptor d := by
  rcases except_bind_eq_error_iff.1 h with h | ⟨_, -, h⟩
  · unfold checkShape at h
    split at h
    · cases h
      exact .inr ⟨_, hexpected _ rfl, rfl⟩
    · split at h
      · cases h
      · cases h
        exact .inl (.invalid _)
    · cases h
      exact .inl (.invalid _)
  · exact .inl (about_of_checkTypes h)

theorem about_of_checkOperation (h : g.checkOperation node = .error e) :
    e.About node ∨ ∃ d, d.Inferred ∧ e = .descriptor d := by
  rw [checkOperation] at h
  split at h
  · exact about_of_checkShape (fun d hd => ⟨_, _, .inl hd⟩) h
  · exact about_of_checkShape (fun d hd => ⟨_, _, .inr hd⟩) h
  · split at h
    · cases h
      exact .inl (.invalid _)
    · exact .inl (about_of_checkTypes h)
  · simp only at h
    split at h
    · cases h
      exact .inl (.invalid _)
    · exact .inl (about_of_checkTypes h)
  · cases h

theorem about_of_append {id : Int32} {kind : OperationKind} {direction : Direction}
    {bindings : List Binding} {descriptor : Descriptor} {place : NodeId}
    (hop : node.operation = .input id ∨ node.operation = .output id) (hkind : node.kind = kind)
    (h : Binding.append kind direction bindings ⟨node.name, id, descriptor, place⟩ = .error e) :
    e.About node := by
  subst hkind
  rw [Binding.append] at h
  split at h
  · cases h
    exact .sameId id hop
  · split at h
    · cases h
      exact .sameName direction
    · cases h

theorem about_of_bindNode {table : BindingTable} (h : g.bindNode table node = .error e) :
    e.About node := by
  rw [bindNode] at h
  split at h
  · rename_i id hop
    split at h
    · cases h
      exact .undescribed _
    · rcases except_bind_eq_error_iff.1 h with h | ⟨_, -, h⟩
      · exact about_of_append (.inl hop) (congrArg Operation.kind hop) h
      · cases h
  · rename_i id hop
    split at h
    · cases h
      exact .dangling _
    · rcases except_bind_eq_error_iff.1 h with h | ⟨_, -, h⟩
      · exact about_of_append (.inr hop) (congrArg Operation.kind hop) h
      · cases h
  · cases h

/-- Validation fails for a walk that misses nodes, for a fault of a node, or for a shape that
cannot be inferred. -/
theorem fault_of_validate (h : g.validate = .error e) :
    e = .cycle ∧ g.order.length ≠ g.live ∨ (∃ node ∈ g.liveNodes, e.About node) ∨
      ∃ d, d.Inferred ∧ e = .descriptor d := by
  rw [validate] at h
  rcases except_bind_eq_error_iff.1 h with h | ⟨_, -, h⟩
  · obtain ⟨node, hn, h⟩ := exists_of_forM_eq_error h
    exact .inr (.inl ⟨node, hn, about_of_checkComplete h⟩)
  · split at h
    · rename_i hwalk
      cases h
      exact .inl ⟨rfl, hwalk⟩
    · rcases except_bind_eq_error_iff.1 h with h | ⟨_, -, h⟩
      · obtain ⟨node, hn, h⟩ := exists_of_forM_eq_error h
        exact .inr ((about_of_checkOperation h).imp_left fun hnode => ⟨node, hn, hnode⟩)
      · rcases except_bind_eq_error_iff.1 h with h | ⟨_, -, h⟩
        · obtain ⟨table, node, hn, h⟩ := exists_of_foldlM_eq_error h
          exact .inr (.inl ⟨node, hn, about_of_bindNode h⟩)
        · cases h

end Graph

end LayerGraph
