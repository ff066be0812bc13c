import LayerGraph.Graph.Validity
import LayerGraph.Workload.Basic

/-!
# Plans

What it takes to run a graph: one buffer for every output, numbered in topological
order, and for every node the spec of its workload. A node reads the buffers of its
producers and writes its own; boundary nodes read and write the caller's tensors.
-/

set_option autoImplicit false

namespace LayerGraph

structure PlanStep where
  spec : WorkloadSpec
  dataType : DataType
  deriving DecidableEq

structure PlanBuffer where
  slot : OutputSlot
  descriptor : Descriptor
  deriving DecidableEq

structure Plan where
  bindings : BindingTable
  buffers : List PlanBuffer
  steps : List PlanStep
  deriving DecidableEq

namespace Plan

def nodeBuffers (node : Node) : Except GraphError (List PlanBuffer) :=
  node.outputs.zipIdx.mapM fun (out, index) =>
    match out.descriptor with
    | some descriptor => .ok ⟨⟨node.id, index⟩, descriptor⟩
    | none => .error (.missingDescriptor node.label index)

def bufferBinding? (buffers : List PlanBuffer) (slot : OutputSlot) : Option TensorBinding :=
  (buffers.zipIdx.find? fun (buffer, _) => buffer.slot == slot).map fun (buffer, index) =>
    ⟨.intermediate index, buffer.descriptor⟩

/-- What feeds an input of a node: the buffer that holds it, described as in the graph. -/
def producerBinding? (g : Graph) (buffers : List PlanBuffer) (node : Node) (index : Nat) :
    Option TensorBinding := do
  let producer ← node.input? index
  let descriptor ← g.outputDescriptor? producer
  let binding ← bufferBinding? buffers producer
  return ⟨binding.slot, descriptor⟩

def inputBinding (g : Graph) (buffers : List PlanBuffer) (node : Node) (index : Nat) :
    Except GraphError TensorBinding :=
  match producerBinding? g buffers node index with
  | some binding => .ok binding
  | none => .error (.danglingInput node.label index)

def outputBinding (buffers : List PlanBuffer) (node : Node) (index : Nat) :
    Except GraphError TensorBinding :=
  match bufferBinding? buffers ⟨node.id, index⟩ with
  | some binding => .ok binding
  | none => .error (.missingDescriptor node.label index)

def boundarySlot : Direction → Nat → SlotRef
  | .input => .boundInput
  | .output => .boundOutput

def boundaryBinding (bindings : BindingTable) (direction : Direction) (node : Node) :
    Except GraphError TensorBinding :=
  match (bindings.side direction).zipIdx.find? fun (binding, _) => binding.node == node.id with
  | some (binding, index) => .ok ⟨boundarySlot direction index, binding.descriptor⟩
  | none =>
    .error (.invalidOperation node.label "boundary node is missing from the binding table")

def stepInputs (g : Graph) (bindings : BindingTable) (buffers : List PlanBuffer) (node : Node) :
    Except GraphError (List TensorBinding) :=
  match node.operation with
  | .input _ => do return [← boundaryBinding bindings .input node]
  | _ => (List.range node.inputs.length).mapM (inputBinding g buffers node)

def stepOutputs (bindings : BindingTable) (buffers : List PlanBuffer) (node : Node) :
    Except GraphError (List TensorBinding) :=
  match node.operation with
  | .output _ => do return [← boundaryBinding bindings .output node]
  | _ => (List.range node.outputs.length).mapM (outputBinding buffers node)

/-- Descriptor that decides the element type: an output node has no tensor of its own
and runs at the type it consumes. -/
def decidingDescriptor? (spec : WorkloadSpec) : Option Descriptor :=
  match spec.operation with
  | .output _ => spec.inputDescriptor? 0
  | _ => spec.outputDescriptor? 0

def step (g : Graph) (bindings : BindingTable) (buffers : List PlanBuffer) (node : Node) :
    Except GraphError PlanStep := do
  let inputs ← stepInputs g bindings buffers node
  let outputs ← stepOutputs bindings buffers node
  let spec : WorkloadSpec := ⟨node.id, node.name, node.operation, inputs, outputs⟩
  match decidingDescriptor? spec with
  | some descriptor => return ⟨spec, descriptor.dataType⟩
  | none => throw (.missingDescriptor node.label 0)

end Plan

namespace Graph

def orderedNodes (g : Graph) : List Node := g.order.filterMap g.node?

def plan (g : Graph) : Except GraphError Plan := do
  g.validate
  let bindings ← g.bindingTable
  let groups ← g.orderedNodes.mapM Plan.nodeBuffers
  let steps ← g.orderedNodes.mapM (Plan.step g bindings groups.flatten)
  return ⟨bindings, groups.flatten, steps⟩

end Graph

end LayerGraph
