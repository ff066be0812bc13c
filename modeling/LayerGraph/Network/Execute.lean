import LayerGraph.Network.Load

/-!
# Execution

The caller's tensors are bound by name and checked before anything runs. Then every
workload runs once, in order: it takes its outputs away, reads its inputs from what is
left and from the caller, and puts its outputs back, also when it fails.
-/

set_option autoImplicit false

namespace LayerGraph

inductive ExecutionError where
  | unknownBoundary (direction : Direction) (name : String)
  | typeMismatch (direction : Direction) (name : String) (expected actual : DataType)
  | shapeMismatch (direction : Direction) (name : String) (expected actual : Shape)
  | missingBinding (direction : Direction) (name : String)
  | duplicateBinding (direction : Direction) (name : String)
  | invalidSlot (workload : String) (slot : SlotRef)
  | workload (workload : String) (cause : WorkloadError)
  deriving DecidableEq

namespace ExecutionError

def boundaryText (direction : Direction) (name : String) : String :=
  direction.label ++ " '" ++ name ++ "'"

def message : ExecutionError → String
  | unknownBoundary direction name =>
    "no " ++ direction.label ++ " binding named '" ++ name ++ "'"
  | typeMismatch direction name expected actual =>
    boundaryText direction name ++ " expects " ++ expected.name ++ " data, got " ++ actual.name
  | shapeMismatch direction name expected actual =>
    boundaryText direction name ++ " expects shape " ++ expected.text ++ " (" ++
      toString expected.numElements ++ " elements), got " ++ actual.text
  | missingBinding direction name => boundaryText direction name ++ " was not bound"
  | duplicateBinding direction name =>
    boundaryText direction name ++ " was bound more than once"
  | invalidSlot name slot =>
    "workload " ++ name ++ " cannot resolve tensor slot " ++ slot.debugText
  | workload name _ => "workload " ++ name ++ " failed"

end ExecutionError

structure NamedTensor where
  name : String
  tensor : Tensor

namespace BindingTable

def resolve (table : BindingTable) (direction : Direction) (supplied : NamedTensor) :
    Except ExecutionError Nat :=
  match table.indexOf? direction supplied.name, table.find? direction supplied.name with
  | some index, some binding =>
    let expected := binding.descriptor
    let actual := supplied.tensor.descriptor
    if expected.dataType ≠ actual.dataType then
      .error (.typeMismatch direction supplied.name expected.dataType actual.dataType)
    else if expected.numElements ≠ actual.numElements then
      .error (.shapeMismatch direction supplied.name expected.shape actual.shape)
    else .ok index
  | _, _ => .error (.unknownBoundary direction supplied.name)

def bindOne (table : BindingTable) (direction : Direction) (places : List (Option Nat))
    (supplied : NamedTensor × Nat) : Except ExecutionError (List (Option Nat)) := do
  let index ← table.resolve direction supplied.1
  if (places[index]?).join.isSome then
    throw (.duplicateBinding direction supplied.1.name)
  return places.set index (some supplied.2)

def bindSide (table : BindingTable) (direction : Direction) (supplied : List NamedTensor) :
    Except ExecutionError (List (Option Nat)) :=
  supplied.zipIdx.foldlM (table.bindOne direction)
    (List.replicate (table.side direction).length none)

def requireAll (table : BindingTable) (direction : Direction) (places : List (Option Nat)) :
    Except ExecutionError (List Nat) :=
  ((table.side direction).zip places).mapM fun (binding, place) =>
    match place with
    | some place => .ok place
    | none => .error (.missingBinding direction binding.name)

def bindAll (table : BindingTable) (inputs outputs : List NamedTensor) :
    Except ExecutionError (List Nat × List Nat) := do
  let inputPlaces ← table.bindSide .input inputs
  let outputPlaces ← table.bindSide .output outputs
  let inputPlaces ← table.requireAll .input inputPlaces
  let outputPlaces ← table.requireAll .output outputPlaces
  return (inputPlaces, outputPlaces)

end BindingTable

/-- State of a run: the buffers of the network, the caller's outputs in the caller's
order, and for each output binding the place of its tensor until a workload takes it. -/
structure RunState where
  buffers : List Memory
  outputs : List Memory
  places : List (Option Nat)

/-- What a workload has taken: buffers with their numbers, and caller outputs with their
places. -/
structure Taken where
  buffers : List (Nat × Memory)
  outputs : List (Nat × Memory)

inductive Destination where
  | buffer (index : Nat)
  | caller (place : Nat)
  deriving DecidableEq

namespace RunState

def take (current : RunState × Taken) (slot : SlotRef) : RunState × Taken :=
  let (state, taken) := current
  match slot with
  | .intermediate index =>
    match state.buffers[index]? with
    | some memory =>
      ({ state with buffers := state.buffers.set index memory.emptied },
        { taken with buffers := taken.buffers ++ [(index, memory)] })
    | none => current
  | .boundOutput index =>
    match (state.places[index]?).join with
    | some place =>
      match state.outputs[place]? with
      | some memory =>
        ({ state with places := state.places.set index none },
          { taken with outputs := taken.outputs ++ [(place, memory)] })
      | none => current
    | none => current
  | .boundInput _ => current

def takeAll (state : RunState) (slots : List SlotRef) : RunState × Taken :=
  slots.foldl take (state, ⟨[], []⟩)

def input? (state : RunState) (inputs : List Memory) : SlotRef → Option Memory
  | .intermediate index => state.buffers[index]?
  | .boundInput index => inputs[index]?
  | .boundOutput _ => none

def readInputs (state : RunState) (inputs : List Memory) (slots : List SlotRef) :
    Except SlotRef (List Memory) :=
  slots.mapM fun slot =>
    match state.input? inputs slot with
    | some memory => .ok memory
    | none => .error slot

/-- Hands out what was taken to the output slots in order, or tells the first slot for
which nothing is left. -/
def handOut : List SlotRef → List (Nat × Memory) → List (Nat × Memory) →
    Except SlotRef (List (Destination × Memory))
  | [], _, _ => .ok []
  | .intermediate _ :: slots, (index, memory) :: buffers, outputs => do
    let rest ← handOut slots buffers outputs
    return (.buffer index, memory) :: rest
  | .boundOutput _ :: slots, buffers, (place, memory) :: outputs => do
    let rest ← handOut slots buffers outputs
    return (.caller place, memory) :: rest
  | slot :: _, _, _ => .error slot

def put (state : RunState) (destination : Destination) (memory : Memory) : RunState :=
  match destination with
  | .buffer index => { state with buffers := state.buffers.set index memory }
  | .caller place => { state with outputs := state.outputs.set place memory }

def putAll (state : RunState) (results : List (Destination × Memory)) : RunState :=
  results.foldl (fun state result => state.put result.1 result.2) state

def restore (state : RunState) (taken : Taken) : RunState :=
  state.putAll (taken.buffers.map fun (index, memory) => (.buffer index, memory))

def connect (state : RunState) (taken : Taken) (inputs : List Memory) (spec : WorkloadSpec) :
    Except SlotRef (List Memory × List (Destination × Memory)) := do
  let read ← state.readInputs inputs (spec.inputs.map (·.slot))
  let written ← handOut (spec.outputs.map (·.slot)) taken.buffers taken.outputs
  return (read, written)

def step (inputs : List Memory) (w : Workload) (state : RunState) :
    RunState × Except ExecutionError Unit :=
  let (rest, taken) := state.takeAll (w.spec.outputs.map (·.slot))
  match rest.connect taken inputs w.spec with
  | .error slot => (rest.restore taken, .error (.invalidSlot w.name slot))
  | .ok (read, written) =>
    let result := w.run read (written.map (·.2))
    let next := rest.putAll ((written.map (·.1)).zip result.outputs)
    match result.outcome with
    | .ok () => (next, .ok ())
    | .error cause => (next, .error (.workload w.name cause))

def steps (inputs : List Memory) : List Workload → RunState → RunState × Except ExecutionError Unit
  | [], state => (state, .ok ())
  | w :: rest, state =>
    match step inputs w state with
    | (next, .ok ()) => steps inputs rest next
    | (next, .error error) => (next, .error error)

end RunState

/-- What an execution leaves: the network, the caller's outputs in the caller's order,
and whether it failed. -/
structure Execution where
  network : Network
  outputs : List Memory
  outcome : Except ExecutionError Unit

namespace Network

def execute (n : Network) (inputs outputs : List NamedTensor) : Execution :=
  let before := outputs.map (·.tensor.memory)
  match n.bindings.bindAll inputs outputs with
  | .error error => ⟨n, before, .error error⟩
  | .ok (inputPlaces, outputPlaces) =>
    let bound := inputPlaces.filterMap fun place => (inputs[place]?).map (·.tensor.memory)
    let (state, outcome) :=
      RunState.steps bound n.workloads ⟨n.buffers, before, outputPlaces.map some⟩
    ⟨{ n with buffers := state.buffers }, state.outputs, outcome⟩

end Network

end LayerGraph
