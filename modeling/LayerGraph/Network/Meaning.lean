import LayerGraph.Backend.Reference
import LayerGraph.Tensor.Coordinates

/-!
# Meaning of a graph

The value of a node, by recursion over the nodes that feed it and without buffers, order
or workloads. Inputs have the values that the caller gives for their names.
-/

set_option autoImplicit false

namespace LayerGraph

namespace Memory

def reorder (m : Memory) (dims source : List Nat) : Memory :=
  ⟨m.storage, (reordered 0 dims source m.data).toArray⟩

def add? (f : FloatAddition) (t : DataType) (left right : Memory) : Option Memory := do
  let add ← f.at? t
  let a ← left.as? t.storage
  let b ← right.as? t.storage
  return ⟨t.storage, Array.zipWith add a b⟩

end Memory

namespace Graph

/-- Value of a node, when the nodes it reads have the values `v`. -/
def nodeValue (f : FloatAddition) (g : Graph) (inputs : String → Option Memory)
    (v : NodeId → Option Memory) (id : NodeId) : Option Memory := do
  let node ← g.node? id
  let operand (index : Nat) : Option Memory := do
    let producer ← node.input? index
    v producer.node
  match node.operation with
  | .input _ => inputs node.name
  | .output _ | .reshape _ => operand 0
  | .permute mappings => do
    let input ← g.inputDescriptor? ⟨id, 0⟩
    return (← operand 0).reorder input.shape.dims mappings.inverse.axes
  | .transpose permutation => do
    let input ← g.inputDescriptor? ⟨id, 0⟩
    return (← operand 0).reorder input.shape.dims permutation.axes
  | .addition => do
    let output ← node.outputDescriptor? 0
    Memory.add? f output.dataType (← operand 0) (← operand 1)

/-- Value of a node, looking at most `depth` nodes back. -/
def valueWithin (f : FloatAddition) (g : Graph) (inputs : String → Option Memory) :
    Nat → NodeId → Option Memory
  | 0, _ => none
  | depth + 1, id => g.nodeValue f inputs (g.valueWithin f inputs depth) id

/-- Value of a node. No path is longer than the arena. -/
def value? (f : FloatAddition) (g : Graph) (inputs : String → Option Memory) (id : NodeId) :
    Option Memory :=
  g.valueWithin f inputs g.nodes.size id

end Graph

end LayerGraph
