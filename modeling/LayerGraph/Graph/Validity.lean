import LayerGraph.Graph.Order
import LayerGraph.Graph.Binding

/-!
# Valid graphs

A graph is valid when every slot is connected and described, it has no cycle, every
operation agrees with the tensors around it, and its boundary has a binding table.
Checks run over the nodes in order of insertion, and the first fault is reported.
-/

set_option autoImplicit false

namespace LayerGraph

namespace Graph

def checkComplete (node : Node) : Except GraphError Unit :=
  match node.inputs.findIdx? Option.isNone with
  | some index => .error (.danglingInput node.label index)
  | none =>
    match node.outputs.findIdx? fun out => out.descriptor.isNone with
    | some index => .error (.missingDescriptor node.label index)
    | none => .ok ()

def checkShape (node : Node) (reason : String) (expected : Option (Except DescriptorError Shape))
    (output : Shape) : Except GraphError Unit :=
  match expected with
  | some (.error error) => .error (.descriptor error)
  | some (.ok shape) =>
    if shape = output then .ok () else .error (.invalidOperation node.label reason)
  | none => .error (.invalidOperation node.label reason)

def checkTypes (g : Graph) (node : Node) (output : Descriptor) : Except GraphError Unit :=
  let inputs := node.inputs.filterMap fun producer => producer.bind g.outputDescriptor?
  if inputs.all fun d => d.dataType == output.dataType then .ok ()
  else .error (.invalidOperation node.label "inputs and outputs must share one data type")

def checkOperation (g : Graph) (node : Node) : Except GraphError Unit :=
  match node.operation, g.inputDescriptor? ⟨node.id, 0⟩, node.outputDescriptor? 0 with
  | .permute p, some input, some output => do
    checkShape node
      ("permute " ++ p.text ++ " of " ++ input.shape.text ++ " cannot produce " ++
        output.shape.text)
      (p.permuteShape? input.shape) output.shape
    g.checkTypes node output
  | .transpose p, some input, some output => do
    checkShape node
      ("transpose " ++ p.text ++ " of " ++ input.shape.text ++ " cannot produce " ++
        output.shape.text)
      (p.transposeShape? input.shape) output.shape
    g.checkTypes node output
  | .reshape target, some input, some output =>
    if target ≠ output.shape ∨ input.numElements ≠ output.numElements then
      .error (.invalidOperation node.label
        ("reshape of " ++ input.shape.text ++ " to " ++ target.text ++
          " does not preserve the element count"))
    else g.checkTypes node output
  | .addition, some left, some output =>
    let right := (g.inputDescriptor? ⟨node.id, 1⟩).map (·.shape)
    if right ≠ some left.shape ∨ left.shape ≠ output.shape then
      .error (.invalidOperation node.label "addition operands and result must share one shape")
    else g.checkTypes node output
  | _, _, _ => .ok ()

def validate (g : Graph) : Except GraphError Unit := do
  g.liveNodes.forM checkComplete
  if g.order.length ≠ g.live then throw .cycle
  g.liveNodes.forM g.checkOperation
  let _ ← g.bindingTable

end Graph

end LayerGraph
