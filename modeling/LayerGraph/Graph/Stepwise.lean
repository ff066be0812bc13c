import LayerGraph.Graph.Reachable

/-!
# Changes one write at a time

A change reads the graph first and writes to it afterwards, slot by slot. Here every write
looks its node and slot up in the graph that the writes before it have left, and fails
when there is none.
-/

set_option autoImplicit false

namespace LayerGraph

namespace Edit

def putInput (slot : InputSlot) (producer : Option OutputSlot) : Edit Unit := do
  let _ ← check fun g => g.producer slot
  modify fun g => g.setInput slot producer

def putConsumers (slot : OutputSlot) (f : List InputSlot → List InputSlot) : Edit Unit := do
  let _ ← check fun g => g.requireOutput slot
  modify fun g => g.updateConsumers slot f

def cut (source : OutputSlot) (target : InputSlot) : Edit Unit := do
  putInput target none
  putConsumers source (·.erase target)

def release (slot : InputSlot) : Edit Unit := do
  if (← check fun g => g.producer slot).isSome then
    let source ← check fun g => g.requireProducer slot
    cut source slot

def route (id : NodeId) (source : OutputSlot) (target : InputSlot) (descriptor : Descriptor) :
    Edit Unit := do
  putInput ⟨id, 0⟩ (some source)
  setDescriptor ⟨id, 0⟩ descriptor
  putConsumers ⟨id, 0⟩ (· ++ [target])
  putConsumers source fun slots => slots.replace target ⟨id, 0⟩
  putInput target (some ⟨id, 0⟩)

end Edit

namespace GraphChange

abbrev Value : GraphChange → Type
  | .add _ _ => NodeId
  | .setDescriptor _ _ => Unit
  | .connect _ _ => Unit
  | .disconnect _ => OutputSlot
  | .insert _ _ _ _ => NodeId
  | .moveAll _ _ => Unit
  | .remove _ => Node
  | .addRelated _ _ => Unit

def edit : (c : GraphChange) → Edit c.Value
  | .add operation name => Edit.add operation name
  | .setDescriptor slot descriptor => Edit.setDescriptor slot descriptor
  | .connect source target => Edit.connect source target
  | .disconnect slot => Edit.disconnect slot
  | .insert position operation name descriptor => Edit.insert position operation name descriptor
  | .moveAll source target => Edit.moveAll source target
  | .remove node => Edit.remove node
  | .addRelated replacement superseded => Edit.addRelated replacement superseded

/-- What a change has read by the time it starts to write. -/
abbrev Found : GraphChange → Type
  | .add _ _ => Unit
  | .setDescriptor _ _ => Unit
  | .connect _ _ => Unit
  | .disconnect _ => OutputSlot
  | .insert _ _ _ _ => OutputSlot
  | .moveAll _ _ => List InputSlot
  | .remove _ => Node
  | .addRelated _ _ => Node

/-- The part of a change before its first write. -/
def checks : (c : GraphChange) → Graph → Except GraphError c.Found
  | .add _ _, _ => return ()
  | .setDescriptor slot _, g => do
    let _ ← g.requireOutput slot
    return ()
  | .connect source target, g => do
    let _ ← g.requireOutput source
    match ← g.producer target with
    | some producer => throw (.slotAlreadyConnected target producer)
    | none =>
      if g.reaches target.node source.node then throw (.wouldCreateCycle source target)
      return ()
  | .disconnect slot, g => g.requireProducer slot
  | .insert position operation name _, g => do
    let source ← g.requireProducer position
    let kind := operation.kind
    if kind.numInputs ≠ 1 ∨ kind.numOutputs ≠ 1 then
      throw (.invalidOperation ⟨position.node, name⟩
        ("cannot insert a " ++ kind.label ++ " node on a single edge"))
    return source
  | .moveAll source target, g => do
    let _ ← g.requireOutput source
    let _ ← g.requireOutput target
    if source = target then return []
    let moved ← g.consumers source
    match moved.find? fun slot => g.reaches slot.node target.node with
    | some slot => throw (.wouldCreateCycle target slot)
    | none => return moved
  | .remove id, g => do
    let node ← g.requireNode id
    if node.hasConsumers then throw (.nodeHasConsumers ⟨id, node.name⟩)
    return node
  | .addRelated replacement superseded, g => do
    let _ ← g.requireNode replacement
    g.requireNode superseded

/-- The part of a change from its first write on. -/
def writes : (c : GraphChange) → c.Found → Edit c.Value
  | .add operation name, _ => Edit.add operation name
  | .setDescriptor slot descriptor, _ => Edit.setDescriptor slot descriptor
  | .connect source target, _ => do
    Edit.putInput target (some source)
    Edit.putConsumers source (· ++ [target])
  | .disconnect slot, source => do
    Edit.cut source slot
    return source
  | .insert position operation name descriptor, source => do
    let id ← Edit.add operation name
    Edit.route id source position descriptor
    return id
  | .moveAll source target, moved => do
    if source ≠ target then
      Edit.putConsumers source fun _ => []
      moved.forM fun slot => Edit.putInput slot (some target)
      Edit.putConsumers target (· ++ moved)
  | .remove id, node => do
    (List.range node.inputs.length).forM fun index => Edit.release ⟨id, index⟩
    let removed ← Edit.check fun g => g.requireNode id
    modify fun g => g.drop id
    return removed
  | .addRelated replacement superseded, node =>
    modify fun g => g.setRelated replacement
      (g.relatedNodes replacement ++ ⟨superseded, node.name⟩ :: g.relatedNodes superseded)

def stepwise (c : GraphChange) : Edit c.Value := do
  let found ← Edit.check c.checks
  c.writes found

end GraphChange

end LayerGraph
