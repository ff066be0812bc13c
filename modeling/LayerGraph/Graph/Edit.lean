import LayerGraph.Graph.Basic

/-!
# Editing a graph

An edit either returns a value or fails, and leaves a graph behind in both cases. Each
edit first checks its arguments and then changes the graph by total functions, so a
failing edit leaves the graph as it was.
-/

set_option autoImplicit false

namespace LayerGraph

abbrev Edit := EStateM GraphError Graph

namespace Graph

def updateNode (g : Graph) (id : NodeId) (f : Node → Node) : Graph :=
  { g with nodes := g.nodes.modify id (Option.map f) }

def setInput (g : Graph) (slot : InputSlot) (producer : Option OutputSlot) : Graph :=
  g.updateNode slot.node fun node => node.setInput slot.index producer

def updateConsumers (g : Graph) (slot : OutputSlot) (f : List InputSlot → List InputSlot) :
    Graph :=
  g.updateNode slot.node fun node =>
    node.updateOutput slot.index fun out => { out with consumers := f out.consumers }

def setDescriptor (g : Graph) (slot : OutputSlot) (descriptor : Descriptor) : Graph :=
  g.updateNode slot.node fun node =>
    node.updateOutput slot.index fun out => { out with descriptor := some descriptor }

/-- Adds an unconnected node; its id is the length of the arena before. -/
def push (g : Graph) (operation : Operation) (name : String) : Graph :=
  { g with
    nodes := g.nodes.push (some (Node.fresh g.nodes.size name operation g.nextSeq))
    live := g.live + 1
    nextSeq := g.nextSeq + 1 }

def link (g : Graph) (source : OutputSlot) (target : InputSlot) : Graph :=
  (g.setInput target (some source)).updateConsumers source (· ++ [target])

def unlink (g : Graph) (source : OutputSlot) (target : InputSlot) : Graph :=
  (g.setInput target none).updateConsumers source (·.erase target)

def detach (g : Graph) (slot : InputSlot) : Graph :=
  match g.producer slot with
  | .ok (some source) => g.unlink source slot
  | _ => g

/-- Puts node `id` on the edge from `source` to `target`: it takes the place of `target`
among the consumers of `source`, and feeds `target`. -/
def splice (g : Graph) (id : NodeId) (source : OutputSlot) (target : InputSlot)
    (descriptor : Descriptor) : Graph :=
  let wired := g.updateNode id fun node =>
    (node.setInput 0 (some source)).updateOutput 0 fun out =>
      { descriptor := some descriptor, consumers := out.consumers ++ [target] }
  (wired.updateConsumers source fun slots => slots.replace target ⟨id, 0⟩).setInput target
    (some ⟨id, 0⟩)

/-- Lets the consumers of `source` read `target`, after those that do already. -/
def moveConsumers (g : Graph) (source target : OutputSlot) (moved : List InputSlot) : Graph :=
  let cleared := g.updateConsumers source fun _ => []
  let rewired := moved.foldl (fun g slot => g.setInput slot (some target)) cleared
  rewired.updateConsumers target (· ++ moved)

def detachAll (g : Graph) (id : NodeId) (count : Nat) : Graph :=
  (List.range count).foldl (fun g index => g.detach ⟨id, index⟩) g

/-- Leaves a hole where a node was and forgets what it superseded. -/
def drop (g : Graph) (id : NodeId) : Graph :=
  { g with
    nodes := g.nodes.modify id fun _ => none
    live := g.live - 1
    related := g.related.filter fun entry => entry.1 != id }

def setRelated (g : Graph) (id : NodeId) (labels : List NodeLabel) : Graph :=
  { g with related := (id, labels) :: g.related.filter fun entry => entry.1 != id }

end Graph

namespace Edit

def check {α : Type} (f : Graph → Except GraphError α) : Edit α := fun g =>
  match f g with
  | .ok value => .ok value g
  | .error error => .error error g

def add (operation : Operation) (name : String) : Edit NodeId := do
  let id := (← get).nodes.size
  modify fun g => g.push operation name
  return id

def setDescriptor (slot : OutputSlot) (descriptor : Descriptor) : Edit Unit := do
  let _ ← check fun g => g.requireOutput slot
  modify fun g => g.setDescriptor slot descriptor

/-- Connects an output to a free input, unless that closes a cycle. -/
def connect (source : OutputSlot) (target : InputSlot) : Edit Unit := do
  let _ ← check fun g => g.requireOutput source
  match ← check fun g => g.producer target with
  | some producer => throw (.slotAlreadyConnected target producer)
  | none =>
    if (← get).reaches target.node source.node then throw (.wouldCreateCycle source target)
    modify fun g => g.link source target

def disconnect (slot : InputSlot) : Edit OutputSlot := do
  let source ← check fun g => g.requireProducer slot
  modify fun g => g.unlink source slot
  return source

def insert (position : InputSlot) (operation : Operation) (name : String)
    (descriptor : Descriptor) : Edit NodeId := do
  let source ← check fun g => g.requireProducer position
  let kind := operation.kind
  if kind.numInputs ≠ 1 ∨ kind.numOutputs ≠ 1 then
    throw (.invalidOperation ⟨position.node, name⟩
      ("cannot insert a " ++ kind.label ++ " node on a single edge"))
  let id ← add operation name
  modify fun g => g.splice id source position descriptor
  return id

/-- Moves every consumer of one output onto another, unless that closes a cycle. -/
def moveAll (source target : OutputSlot) : Edit Unit := do
  let _ ← check fun g => g.requireOutput source
  let _ ← check fun g => g.requireOutput target
  if source ≠ target then
    let moved ← check fun g => g.consumers source
    let g ← get
    match moved.find? fun slot => g.reaches slot.node target.node with
    | some slot => throw (.wouldCreateCycle target slot)
    | none => modify fun g => g.moveConsumers source target moved

def remove (id : NodeId) : Edit Node := do
  let node ← check fun g => g.requireNode id
  if node.hasConsumers then throw (.nodeHasConsumers ⟨id, node.name⟩)
  modify fun g => g.detachAll id node.inputs.length
  let removed ← check fun g => g.requireNode id
  modify fun g => g.drop id
  return removed

/-- Records that one node supersedes another and all that one had superseded. -/
def addRelated (replacement superseded : NodeId) : Edit Unit := do
  let _ ← check fun g => g.requireNode replacement
  let node ← check fun g => g.requireNode superseded
  modify fun g =>
    g.setRelated replacement
      (g.relatedNodes replacement ++ ⟨superseded, node.name⟩ :: g.relatedNodes superseded)

end Edit

end LayerGraph
