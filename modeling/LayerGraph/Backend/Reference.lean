import LayerGraph.Backend.Basic
import LayerGraph.Backend.Kernel

/-!
# The reference backend

Plain workloads for every operation. A constructor accepts a spec of its own kind and
element type whose shapes agree with the operation. How two floating-point elements are
added is left open; the standard choice rounds the exact sum to the nearest value.
-/

set_option autoImplicit false

namespace LayerGraph

structure FloatAddition where
  half : BitVec 16 → BitVec 16 → BitVec 16
  single : BitVec 32 → BitVec 32 → BitVec 32

namespace FloatAddition

/-- The exact sum, rounded to nearest with ties to even. -/
def nearest : FloatAddition where
  half a b := BitVec.ofNat 16 (BinaryFormat.half.add a.toNat b.toNat)
  single a b := BitVec.ofNat 32 (BinaryFormat.single.add a.toNat b.toNat)

/-- Addition of elements of a type; integers wrap around. -/
def at? (f : FloatAddition) :
    (t : DataType) → Option (BitVec t.storage.bits → BitVec t.storage.bits → BitVec t.storage.bits)
  | .float16 => some f.half
  | .float32 => some f.single
  | .signed32 => some fun (a b : BitVec 32) => a + b
  | _ => none

end FloatAddition

namespace Reference

def invalid {α : Type} (kind : OperationKind) (t : DataType) (reason : String) :
    Except WorkloadError α :=
  .error (.invalidDescriptor (workloadName "Ref" kind t) reason)

def checkSpec (kind : OperationKind) (t : DataType) (spec : WorkloadSpec) :
    Except WorkloadError Unit := do
  if spec.operation.kind ≠ kind then
    invalid kind t ("descriptor is for a " ++ spec.operation.kind.label ++ " node")
  spec.checkArity (workloadName "Ref" kind t)
  match (spec.inputs ++ spec.outputs).find? fun binding => binding.descriptor.dataType != t with
  | some binding =>
    invalid kind t ("tensor " ++ binding.descriptor.text ++ " does not have type " ++ t.name)
  | none => return ()

def unaryTensors (kind : OperationKind) (t : DataType) (spec : WorkloadSpec) :
    Except WorkloadError (Descriptor × Descriptor) := do
  checkSpec kind t spec
  match spec.inputs, spec.outputs with
  | [input], [output] => return (input.descriptor, output.descriptor)
  | _, _ => invalid kind t spec.arityReason

def unary (kind : OperationKind) (t : DataType) (spec : WorkloadSpec)
    (kernel : Elements t.storage → (room : Nat) → Except String (ElementsOf t.storage room)) :
    Workload where
  name := workloadName "Ref" kind t
  description := "reference " ++ spec.operation.kind.label ++ ", " ++ t.phrase
  dataType := t
  spec := spec
  run := runUnary (workloadName "Ref" kind t) t.storage kernel
  extents_run := extents_runUnary _ _ _

def checkTarget (kind : OperationKind) (t : DataType) (operation : Operation)
    (output : Descriptor) : Except WorkloadError Unit :=
  match operation with
  | .reshape target =>
    if target ≠ output.shape then
      invalid kind t ("target shape " ++ target.text ++ " differs from output " ++ output.text)
    else .ok ()
  | _ => .ok ()

/-- Copies the elements as they are: input, output and reshape. -/
def copying (kind : OperationKind) (t : DataType) : WorkloadConstructor := fun spec => do
  let (input, output) ← unaryTensors kind t spec
  if input.numElements ≠ output.numElements then
    invalid kind t ("input has " ++ toString input.numElements ++ " elements but output has " ++
      toString output.numElements)
  checkTarget kind t spec.operation output
  return unary kind t spec Kernel.copy

/-- The input axis that each output axis reads. -/
def sourceAxes? : Operation → Option (List Nat)
  | .permute mappings => some mappings.inverse.axes
  | .transpose permutation => some permutation.axes
  | _ => none

def gatherPlan (kind : OperationKind) (t : DataType) (source : List Nat)
    (input output : Shape) : Except WorkloadError (List Nat) :=
  if source.length ≠ input.rank then
    invalid kind t (toString source.length ++ "-axis permutation applied to rank-" ++
      toString input.rank ++ " input " ++ input.text)
  else
    let expected := Permutation.gatherDims input.dims source
    if expected ≠ output.dims then
      invalid kind t ("permuting " ++ input.text ++ " yields " ++ natListText expected ++
        ", output is " ++ output.text)
    else .ok (gatherTable input.dims source)

def reordering (kind : OperationKind) (t : DataType) : WorkloadConstructor := fun spec => do
  let (input, output) ← unaryTensors kind t spec
  match sourceAxes? spec.operation with
  | none => invalid kind t ("expected " ++ kind.label ++ " parameters")
  | some source =>
    let table ← gatherPlan kind t source input.shape output.shape
    return unary kind t spec (Kernel.gather table)

def adding (t : DataType)
    (add : BitVec t.storage.bits → BitVec t.storage.bits → BitVec t.storage.bits) :
    WorkloadConstructor := fun spec => do
  checkSpec .addition t spec
  match spec.inputs, spec.outputs with
  | [left, right], [output] =>
    let a := left.descriptor.shape
    let b := right.descriptor.shape
    let c := output.descriptor.shape
    if a ≠ b ∨ a ≠ c then
      invalid .addition t ("operands " ++ a.text ++ " and " ++ b.text ++ " cannot produce " ++
        c.text)
    return {
      name := workloadName "Ref" .addition t
      description := "reference " ++ spec.operation.kind.label ++ ", " ++ t.phrase
      dataType := t
      spec := spec
      run := runBinary (workloadName "Ref" .addition t) t.storage (Kernel.sum add)
      extents_run := extents_runBinary _ _ _ }
  | _, _ => invalid .addition t spec.arityReason

def constructor? (f : FloatAddition) (kind : OperationKind) (t : DataType) :
    Option WorkloadConstructor :=
  match kind with
  | .input | .output | .reshape => some (copying kind t)
  | .permute | .transpose => some (reordering kind t)
  | .addition => (f.at? t).map (adding t)

def reorderedTypes : List DataType :=
  [.bfloat16, .float16, .float32, .qasymmS8, .qasymmU8, .qsymmS16]

def summedTypes : List DataType := [.float32, .float16, .signed32]

def types : OperationKind → List DataType
  | .input | .output | .reshape => DataType.all
  | .permute | .transpose => reorderedTypes
  | .addition => summedTypes

def offers (f : FloatAddition) : List Offer :=
  OperationKind.all.flatMap fun kind =>
    (types kind).filterMap fun t => (constructor? f kind t).map fun c => ⟨kind, t, c⟩

end Reference

def referenceId : BackendId := "CpuRef"

def referenceBackend (f : FloatAddition) : Backend :=
  { id := referenceId
    offers := Reference.offers f
    notice := some "registered reference workloads" }

def Backends.standard : Backends :=
  Table.empty.put referenceId (referenceBackend .nearest)

end LayerGraph
