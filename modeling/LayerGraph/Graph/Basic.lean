import LayerGraph.Graph.Operation

/-!
# Computation graphs

Nodes live in an arena indexed by their id; a removed node leaves a hole, so ids stay
what they are for the whole life of a graph. An edge is recorded at both ends: the
input slot names its producer and the output lists its consumers in order of
connection.
-/

set_option autoImplicit false

namespace LayerGraph

abbrev NodeId := Nat

structure InputSlot where
  node : NodeId
  index : Nat
  deriving DecidableEq

structure OutputSlot where
  node : NodeId
  index : Nat
  deriving DecidableEq

def nodeText (id : NodeId) : String := "#" ++ toString id

def InputSlot.text (s : InputSlot) : String :=
  nodeText s.node ++ ".in[" ++ toString s.index ++ "]"

def OutputSlot.text (s : OutputSlot) : String :=
  nodeText s.node ++ ".out[" ++ toString s.index ++ "]"

/-- Id and name of a node, kept after the node itself is gone. -/
structure NodeLabel where
  id : NodeId
  name : String
  deriving DecidableEq

structure NodeOutput where
  descriptor : Option Descriptor
  consumers : List InputSlot
  deriving DecidableEq

structure Node where
  id : NodeId
  name : String
  operation : Operation
  inputs : List (Option OutputSlot)
  outputs : List NodeOutput
  seq : Nat
  deriving DecidableEq

namespace Node

def fresh (id : NodeId) (name : String) (operation : Operation) (seq : Nat) : Node :=
  { id, name, operation, seq
    inputs := List.replicate operation.kind.numInputs none
    outputs := List.replicate operation.kind.numOutputs ⟨none, []⟩ }

def kind (n : Node) : OperationKind := n.operation.kind

/-- Producer of an input, when the slot exists and is connected. -/
def input? (n : Node) (index : Nat) : Option OutputSlot := (n.inputs[index]?).join

def outputDescriptor? (n : Node) (index : Nat) : Option Descriptor :=
  (n.outputs[index]?).bind (·.descriptor)

def consumers (n : Node) (index : Nat) : List InputSlot :=
  match n.outputs[index]? with
  | some out => out.consumers
  | none => []

def hasConsumers (n : Node) : Bool := n.outputs.any fun out => !out.consumers.isEmpty

/-- Nodes that read some output, once for each edge. -/
def successors (n : Node) : List NodeId :=
  n.outputs.flatMap fun out => out.consumers.map (·.node)

def label (n : Node) : NodeLabel := ⟨n.id, n.name⟩

def setInput (n : Node) (index : Nat) (producer : Option OutputSlot) : Node :=
  { n with inputs := n.inputs.set index producer }

def updateOutput (n : Node) (index : Nat) (f : NodeOutput → NodeOutput) : Node :=
  { n with outputs := n.outputs.modify index f }

end Node

inductive Direction where
  | input
  | output
  deriving DecidableEq, Repr

def Direction.label : Direction → String
  | .input => "input"
  | .output => "output"

inductive GraphError where
  | unknownNode (node : NodeId)
  | unknownInputSlot (slot : InputSlot)
  | unknownOutputSlot (slot : OutputSlot)
  | slotAlreadyConnected (slot : InputSlot) (producer : OutputSlot)
  | unconnectedSlot (slot : InputSlot)
  | wouldCreateCycle (source : OutputSlot) (target : InputSlot)
  | danglingInput (node : NodeLabel) (index : Nat)
  | missingDescriptor (node : NodeLabel) (index : Nat)
  | cycle
  | nodeHasConsumers (node : NodeLabel)
  | duplicateBindingId (kind : OperationKind) (id : Int32)
  | duplicateBoundaryName (direction : Direction) (name : String)
  | invalidOperation (node : NodeLabel) (reason : String)
  | unknownLayer (layer referencedBy : String)
  | duplicateLayerName (name : String)
  | descriptor (error : DescriptorError)
  deriving DecidableEq

def NodeLabel.text (n : NodeLabel) : String :=
  "node " ++ nodeText n.id ++ " ('" ++ n.name ++ "')"

namespace GraphError

def message : GraphError → String
  | unknownNode node => "node " ++ nodeText node ++ " does not exist"
  | unknownInputSlot slot => "input slot " ++ slot.text ++ " does not exist"
  | unknownOutputSlot slot => "output slot " ++ slot.text ++ " does not exist"
  | slotAlreadyConnected slot producer =>
    "input slot " ++ slot.text ++ " is already connected to " ++ producer.text
  | unconnectedSlot slot => "input slot " ++ slot.text ++ " is not connected"
  | wouldCreateCycle source target =>
    "connecting " ++ source.text ++ " to " ++ target.text ++ " would create a cycle"
  | danglingInput node index =>
    node.text ++ " has an unconnected input slot " ++ toString index
  | missingDescriptor node index =>
    node.text ++ " output " ++ toString index ++ " has no tensor descriptor"
  | cycle => "graph contains a cycle"
  | nodeHasConsumers node => node.text ++ " still has consumers"
  | duplicateBindingId kind id =>
    kind.label ++ " binding id " ++ toString id.toInt ++ " is used by more than one node"
  | duplicateBoundaryName direction name =>
    direction.label ++ " name '" ++ name ++ "' is used by more than one boundary node"
  | invalidOperation node reason =>
    node.text ++ " is inconsistent with its tensors: " ++ reason
  | unknownLayer layer referencedBy =>
    "layer '" ++ referencedBy ++ "' references unknown layer '" ++ layer ++ "'"
  | duplicateLayerName name => "layer name '" ++ name ++ "' is used more than once"
  | descriptor error => error.message

end GraphError

/-- Arena of nodes, number of live ones, next sequence number, and for each node the
nodes it has superseded. -/
structure Graph where
  nodes : Array (Option Node)
  live : Nat
  nextSeq : Nat
  related : List (NodeId × List NodeLabel)
  deriving DecidableEq

namespace Graph

def empty : Graph := ⟨#[], 0, 0, []⟩

def isEmpty (g : Graph) : Bool := g.live == 0

def node? (g : Graph) (id : NodeId) : Option Node := (g.nodes[id]?).join

def contains (g : Graph) (id : NodeId) : Bool := (g.node? id).isSome

/-- Live nodes in order of insertion. -/
def liveNodes (g : Graph) : List Node := g.nodes.toList.filterMap id

def find? (g : Graph) (name : String) : Option NodeId :=
  (g.liveNodes.find? fun n => n.name == name).map (·.id)

def requireNode (g : Graph) (id : NodeId) : Except GraphError Node :=
  match g.node? id with
  | some node => .ok node
  | none => .error (.unknownNode id)

def producer (g : Graph) (slot : InputSlot) : Except GraphError (Option OutputSlot) := do
  let node ← g.requireNode slot.node
  match node.inputs[slot.index]? with
  | some producer => return producer
  | none => throw (.unknownInputSlot slot)

def requireProducer (g : Graph) (slot : InputSlot) : Except GraphError OutputSlot := do
  match ← g.producer slot with
  | some producer => return producer
  | none => throw (.unconnectedSlot slot)

def requireOutput (g : Graph) (slot : OutputSlot) : Except GraphError Node := do
  let node ← g.requireNode slot.node
  if slot.index < node.outputs.length then return node
  else throw (.unknownOutputSlot slot)

def consumers (g : Graph) (slot : OutputSlot) : Except GraphError (List InputSlot) := do
  let node ← g.requireOutput slot
  return node.consumers slot.index

def outputDescriptor? (g : Graph) (slot : OutputSlot) : Option Descriptor :=
  (g.node? slot.node).bind fun node => node.outputDescriptor? slot.index

def inputDescriptor? (g : Graph) (slot : InputSlot) : Option Descriptor :=
  match g.producer slot with
  | .ok (some producer) => g.outputDescriptor? producer
  | _ => none

/-- Nodes superseded by a node, with what those had superseded. -/
def relatedNodes (g : Graph) (id : NodeId) : List NodeLabel :=
  (g.related.lookup id).getD []

def successors (g : Graph) (id : NodeId) : List NodeId :=
  match g.node? id with
  | some node => node.successors
  | none => []

def edgeCount (g : Graph) : Nat := (g.liveNodes.flatMap fun node => node.successors).length

/-- Search along edges from the nodes on the stack. Each step takes one node off, and
the successors of a node are pushed once, so the steps are at most the edges and one. -/
def reachesFrom (g : Graph) (target : NodeId) : Nat → List NodeId → List NodeId → Bool
  | 0, _, _ => false
  | _ + 1, _, [] => false
  | steps + 1, visited, current :: stack =>
    if current = target then true
    else if visited.contains current then g.reachesFrom target steps visited stack
    else g.reachesFrom target steps (current :: visited) (g.successors current ++ stack)

/-- Whether `target` can be reached from `start` along edges, in any number of steps. -/
def reaches (g : Graph) (start target : NodeId) : Bool :=
  g.reachesFrom target (g.edgeCount + 1) [] [start]

end Graph

end LayerGraph
