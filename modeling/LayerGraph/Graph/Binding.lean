import LayerGraph.Graph.Basic

/-!
# Boundary tensors

The binding table names the tensors a caller supplies and receives, in the order in
which their nodes were inserted. Ids and names are unique on each side.
-/

set_option autoImplicit false

namespace LayerGraph

structure Binding where
  name : String
  id : Int32
  descriptor : Descriptor
  node : NodeId
  deriving DecidableEq

structure BindingTable where
  inputs : List Binding
  outputs : List Binding
  deriving DecidableEq

namespace Binding

def toJson (b : Binding) : Json :=
  .record [("name", .text b.name), ("id", .int b.id.toInt), ("descriptor", b.descriptor.toJson)]

def append (kind : OperationKind) (direction : Direction) (bindings : List Binding)
    (b : Binding) : Except GraphError (List Binding) :=
  if bindings.any fun other => other.id == b.id then .error (.duplicateBindingId kind b.id)
  else if bindings.any fun other => other.name == b.name then
    .error (.duplicateBoundaryName direction b.name)
  else .ok (bindings ++ [b])

end Binding

namespace BindingTable

def empty : BindingTable := ⟨[], []⟩

def side (t : BindingTable) : Direction → List Binding
  | .input => t.inputs
  | .output => t.outputs

def indexOf? (t : BindingTable) (direction : Direction) (name : String) : Option Nat :=
  (t.side direction).findIdx? fun b => b.name == name

def find? (t : BindingTable) (direction : Direction) (name : String) : Option Binding :=
  (t.side direction).find? fun b => b.name == name

def toJson (t : BindingTable) : Json :=
  .record [("inputs", .array (t.inputs.map Binding.toJson)),
    ("outputs", .array (t.outputs.map Binding.toJson))]

end BindingTable

namespace Graph

def bindNode (g : Graph) (table : BindingTable) (node : Node) : Except GraphError BindingTable :=
  match node.operation with
  | .input id =>
    match node.outputDescriptor? 0 with
    | none => .error (.missingDescriptor node.label 0)
    | some descriptor => do
      let inputs ← Binding.append .input .input table.inputs ⟨node.name, id, descriptor, node.id⟩
      return { table with inputs }
  | .output id =>
    match g.inputDescriptor? ⟨node.id, 0⟩ with
    | none => .error (.danglingInput node.label 0)
    | some descriptor => do
      let outputs ←
        Binding.append .output .output table.outputs ⟨node.name, id, descriptor, node.id⟩
      return { table with outputs }
  | _ => .ok table

def bindingTable (g : Graph) : Except GraphError BindingTable :=
  g.liveNodes.foldlM g.bindNode BindingTable.empty

end Graph

end LayerGraph
