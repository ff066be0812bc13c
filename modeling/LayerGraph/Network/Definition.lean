import LayerGraph.Graph.Edit
import LayerGraph.Json.Reader
import LayerGraph.Json.Writer

/-!
# Network definitions

A definition lists layers by name, in any order. Building adds a node for every layer
and then connects each input to the output that the layer names as its source.
-/

set_option autoImplicit false

namespace LayerGraph

structure LayerSource where
  layer : String
  slot : UInt64
  deriving DecidableEq

structure Layer where
  name : String
  operation : Operation
  inputs : List LayerSource
  outputs : List Descriptor
  deriving DecidableEq

structure Definition where
  layers : List Layer
  deriving DecidableEq

namespace LayerSource

def slotOfJson? : Option Json → Option UInt64
  | none => some 0
  | some j =>
    j.asNat?.bind fun n => if n < indexLimit then some (UInt64.ofNat n) else none

def ofJson? (j : Json) : Option LayerSource :=
  match j.record? ["layer", "slot"] with
  | some [some layer, slot] => do
    let layer ← layer.asText?
    let slot ← slotOfJson? slot
    return ⟨layer, slot⟩
  | _ => none

def toJson (s : LayerSource) : Json :=
  .record [("layer", .text s.layer), ("slot", .nat s.slot.toNat)]

end LayerSource

/-- A list that may be left out when it is empty. -/
def listOfJson? {α : Type} (item? : Json → Option α) : Option Json → Option (List α)
  | none => some []
  | some j => j.asItems?.bind fun items => items.mapM item?

namespace Layer

/-- Containers around an operation: the definition, its layers, and the layer. -/
def operationDepth : Nat := 3

def ofJson? (j : Json) : Option Layer :=
  match j.record? ["name", "operation", "inputs", "outputs"] with
  | some [some name, some operation, inputs, outputs] => do
    let name ← name.asText?
    let operation ← Operation.ofJson? operationDepth operation
    let inputs ← listOfJson? LayerSource.ofJson? inputs
    let outputs ← listOfJson? Descriptor.ofJson? outputs
    return ⟨name, operation, inputs, outputs⟩
  | _ => none

def toJson (l : Layer) : Json :=
  .record [("name", .text l.name), ("operation", l.operation.toJson),
    ("inputs", .array (l.inputs.map LayerSource.toJson)),
    ("outputs", .array (l.outputs.map Descriptor.toJson))]

end Layer

namespace Definition

def ofJson? (j : Json) : Option Definition :=
  match j.record? ["layers"] with
  | some [some layers] => do
    let items ← layers.asItems?
    let layers ← items.mapM Layer.ofJson?
    return ⟨layers⟩
  | _ => none

def toJson (d : Definition) : Json :=
  .record [("layers", .array (d.layers.map Layer.toJson))]

def parse? (text : String) : Option Definition := (Json.parse? text).bind ofJson?

def render (d : Definition) : String := d.toJson.pretty

def arityReason (l : Layer) : String :=
  let kind := l.operation.kind
  kind.label ++ " takes " ++ toString kind.numInputs ++ " inputs and " ++
    toString kind.numOutputs ++ " outputs, layer lists " ++ toString l.inputs.length ++ " and " ++
    toString l.outputs.length

def addLayer (ids : List (String × NodeId)) (l : Layer) : Edit (List (String × NodeId)) := do
  let id ← Edit.add l.operation l.name
  if (ids.lookup l.name).isSome then throw (.duplicateLayerName l.name)
  let kind := l.operation.kind
  if l.outputs.length ≠ kind.numOutputs ∨ l.inputs.length ≠ kind.numInputs then
    throw (.invalidOperation ⟨id, l.name⟩ (arityReason l))
  l.outputs.zipIdx.forM fun (descriptor, index) => Edit.setDescriptor ⟨id, index⟩ descriptor
  return (l.name, id) :: ids

def connectInput (ids : List (String × NodeId)) (l : Layer) (id : NodeId)
    (input : LayerSource × Nat) : Edit Unit :=
  match ids.lookup input.1.layer with
  | none => throw (.unknownLayer input.1.layer l.name)
  | some producer => Edit.connect ⟨producer, input.1.slot.toNat⟩ ⟨id, input.2⟩

def connectLayer (ids : List (String × NodeId)) (l : Layer) : Edit Unit :=
  match ids.lookup l.name with
  | none => throw (.unknownLayer l.name l.name)
  | some id => l.inputs.zipIdx.forM (connectInput ids l id)

def assemble (d : Definition) : Edit Unit := do
  let ids ← d.layers.foldlM addLayer []
  d.layers.forM (connectLayer ids)

def build (d : Definition) : Except GraphError Graph :=
  match d.assemble Graph.empty with
  | .ok _ g => .ok g
  | .error error _ => .error error

end Definition

end LayerGraph
