import LayerGraph.Graph.Basic
import LayerGraph.Tensor.Memory
import LayerGraph.Text.Quoted

/-!
# Workloads

A workload computes one node for one element type. Its spec says where its tensors live
and how they are described; running it reads the input memories and writes the output
memories, whose extents never change.
-/

set_option autoImplicit false

namespace LayerGraph

abbrev BackendId := String

/-- Where a tensor of a workload lives: in a buffer of the network, or in the memory that
the caller binds to an input or output of the binding table. -/
inductive SlotRef where
  | intermediate (index : Nat)
  | boundInput (index : Nat)
  | boundOutput (index : Nat)
  deriving DecidableEq, Repr

def SlotRef.debugText : SlotRef → String
  | .intermediate index => "Intermediate(" ++ toString index ++ ")"
  | .boundInput index => "BoundInput(" ++ toString index ++ ")"
  | .boundOutput index => "BoundOutput(" ++ toString index ++ ")"

structure TensorBinding where
  slot : SlotRef
  descriptor : Descriptor
  deriving DecidableEq

structure WorkloadSpec where
  node : NodeId
  name : String
  operation : Operation
  inputs : List TensorBinding
  outputs : List TensorBinding
  deriving DecidableEq

inductive WorkloadError where
  | unsupportedCombination (kind : OperationKind) (dataType : DataType) (backend : BackendId)
  | unknownBackend (name : String)
  | dataTypeMismatch (workload : String) (requested created : DataType)
  | invalidDescriptor (workload reason : String)
  | missingTensor (workload : String) (direction : Direction) (index : Nat)
  | storageMismatch (workload : String) (expected actual : Storage)
  | execution (workload reason : String)
  deriving DecidableEq

namespace WorkloadError

def message : WorkloadError → String
  | unsupportedCombination kind t backend =>
    "no " ++ kind.label ++ " workload for data type " ++ t.name ++ " on backend " ++ backend
  | unknownBackend name => "backend " ++ name ++ " is not registered"
  | dataTypeMismatch workload requested created =>
    "constructor for " ++ requested.name ++ " produced workload " ++ workload ++ " of type " ++
      created.name
  | invalidDescriptor workload reason => "invalid descriptor for " ++ workload ++ ": " ++ reason
  | missingTensor workload direction index =>
    workload ++ " has no " ++ direction.label ++ " tensor at index " ++ toString index
  | storageMismatch workload expected actual =>
    workload ++ " expected " ++ expected.name ++ " memory, got " ++ actual.name
  | execution workload reason => workload ++ " failed: " ++ reason

end WorkloadError

/-- Input tensors a workload binds; an input node also binds the caller's tensor. -/
def OperationKind.workloadInputs : OperationKind → Nat
  | .input => 1
  | kind => kind.numInputs

/-- Output tensors a workload binds; an output node also binds the caller's tensor. -/
def OperationKind.workloadOutputs : OperationKind → Nat
  | .output => 1
  | kind => kind.numOutputs

def workloadName (head : String) (kind : OperationKind) (t : DataType) : String :=
  head ++ kind.name ++ t.name ++ "Workload"

namespace WorkloadSpec

def inputDescriptor? (s : WorkloadSpec) (index : Nat) : Option Descriptor :=
  (s.inputs[index]?).map (·.descriptor)

def outputDescriptor? (s : WorkloadSpec) (index : Nat) : Option Descriptor :=
  (s.outputs[index]?).map (·.descriptor)

def arityReason (s : WorkloadSpec) : String :=
  let kind := s.operation.kind
  kind.label ++ " binds " ++ toString kind.workloadInputs ++ " inputs and " ++
    toString kind.workloadOutputs ++ " outputs, descriptor has " ++ toString s.inputs.length ++
    " and " ++ toString s.outputs.length

def checkArity (s : WorkloadSpec) (workload : String) : Except WorkloadError Unit :=
  if s.inputs.length ≠ s.operation.kind.workloadInputs ∨
      s.outputs.length ≠ s.operation.kind.workloadOutputs then
    .error (.invalidDescriptor workload s.arityReason)
  else .ok ()

end WorkloadSpec

/-- What a run leaves: the output memories, and whether it failed. -/
structure WorkloadRun where
  outputs : List Memory
  outcome : Except WorkloadError Unit

structure Workload where
  name : String
  description : String
  dataType : DataType
  spec : WorkloadSpec
  /-- Runs on the input memories and the output memories as they are before. -/
  run : List Memory → List Memory → WorkloadRun
  extents_run : ∀ inputs outputs,
    (run inputs outputs).outputs.map Memory.extent = outputs.map Memory.extent

namespace Workload

def debugText (w : Workload) : String :=
  "Workload \x7b name: " ++ quoted w.name ++ ", node: NodeId(" ++ toString w.spec.node ++
    ") \x7d"

end Workload

abbrev WorkloadConstructor := WorkloadSpec → Except WorkloadError Workload

end LayerGraph
