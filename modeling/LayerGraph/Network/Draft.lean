import LayerGraph.Network.Definition

/-!
# Definitions before any check

What a text says of a definition when nothing is asked of its numbers: dimensions and axes as
they are listed, and a scale and an offset beside any type. A draft is valid when its numbers
make shapes, permutations and descriptors.
-/

set_option autoImplicit false

namespace LayerGraph

structure DescriptorDraft where
  dims : List Nat
  dataType : DataType
  quantization : Option Quantization
  deriving DecidableEq

inductive OperationDraft where
  | input (bindingId : Int32)
  | output (bindingId : Int32)
  | permute (mappings : List Nat)
  | transpose (permutation : List Nat)
  | reshape (target : List Nat)
  | addition
  deriving DecidableEq

structure LayerDraft where
  name : String
  operation : OperationDraft
  inputs : List LayerSource
  outputs : List DescriptorDraft
  deriving DecidableEq

structure IsShape (dims : List Nat) : Prop where
  ne_nil : dims ≠ []
  pos : ∀ d ∈ dims, 0 < d
  volume_lt : volume dims < indexLimit

/-- Axes that make a permutation: the numbers below their count, each once. -/
def IsPermutation (axes : List Nat) : Prop := axes.Perm (List.range axes.length)

/-- The shape is one, the type is quantized or not as it should be, and a scale is a finite
number above zero: a pattern between those of zero and infinity. -/
structure DescriptorDraft.Valid (d : DescriptorDraft) : Prop where
  shape : IsShape d.dims
  quantized : d.quantization.isSome = d.dataType.isQuantized
  scale : ∀ q, d.quantization = some q →
    0 < q.scale.toNat ∧ q.scale.toNat < BinaryFormat.single.infinityBits
  offset : ∀ q, d.quantization = some q → d.dataType.isSymmetric = true → q.offset = 0

def OperationDraft.Valid : OperationDraft → Prop
  | .permute axes => IsPermutation axes
  | .transpose axes => IsPermutation axes
  | .reshape dims => IsShape dims
  | _ => True

structure LayerDraft.Valid (l : LayerDraft) : Prop where
  operation : l.operation.Valid
  outputs : ∀ d ∈ l.outputs, d.Valid

section Forget

def Descriptor.draft (d : Descriptor) : DescriptorDraft :=
  ⟨d.shape.dims, d.dataType, d.quantization⟩

def Operation.draft : Operation → OperationDraft
  | .input id => .input id
  | .output id => .output id
  | .permute p => .permute p.axes
  | .transpose p => .transpose p.axes
  | .reshape s => .reshape s.dims
  | .addition => .addition

def Layer.draft (l : Layer) : LayerDraft :=
  ⟨l.name, l.operation.draft, l.inputs, l.outputs.map Descriptor.draft⟩

def Operation.target? : Operation → Option Shape
  | .reshape s => some s
  | _ => none

def Layer.shapes (l : Layer) : List Shape :=
  l.operation.target?.toList ++ l.outputs.map Descriptor.shape

end Forget

namespace DescriptorDraft

def ofJson? (j : Json) : Option DescriptorDraft :=
  match j.record? ["shape", "data_type", "quantization"] with
  | some [some shape, some dataType, quantization] => do
    let dims ← shape.asNats?
    let dataType ← DataType.ofJson? dataType
    let quantization ← Descriptor.quantizationOfJson? quantization
    return ⟨dims, dataType, quantization⟩
  | _ => none

end DescriptorDraft

namespace OperationDraft

/-- Operation of a kind with its parameters; those that are not lists are read as ever. -/
def ofParameters? (kind : String) (parameters : Json) : Option OperationDraft :=
  if kind = "permute" then
    (Operation.parameter? "mappings" parameters).bind fun j => j.asNats?.map .permute
  else if kind = "transpose" then
    (Operation.parameter? "permutation" parameters).bind fun j => j.asNats?.map .transpose
  else if kind = "reshape" then
    (Operation.parameter? "target_shape" parameters).bind fun j => j.asNats?.map .reshape
  else (Operation.ofParameters? kind parameters).map Operation.draft

def ofJson? (enclosing : Nat) (j : Json) : Option OperationDraft :=
  if j.isReadable (Json.nestingLimit - enclosing) then
    match j with
    | .array (kind :: parameters) =>
      kind.asText?.bind fun kind => ofParameters? kind (.array parameters)
    | .object fields =>
      match fields.filter (fun entry => entry.1 == some "kind") with
      | [(_, kind)] =>
        kind.asText?.bind fun kind =>
          ofParameters? kind (.object (fields.filter fun entry => entry.1 != some "kind"))
      | _ => none
    | _ => none
  else none

end OperationDraft

namespace LayerDraft

def ofJson? (j : Json) : Option LayerDraft :=
  match j.record? ["name", "operation", "inputs", "outputs"] with
  | some [some name, some operation, inputs, outputs] => do
    let name ← name.asText?
    let operation ← OperationDraft.ofJson? Layer.operationDepth operation
    let inputs ← listOfJson? LayerSource.ofJson? inputs
    let outputs ← listOfJson? DescriptorDraft.ofJson? outputs
    return ⟨name, operation, inputs, outputs⟩
  | _ => none

end LayerDraft

namespace Definition

def draftOfJson? (j : Json) : Option (List LayerDraft) :=
  match j.record? ["layers"] with
  | some [some layers] => layers.asItems?.bind fun items => items.mapM LayerDraft.ofJson?
  | _ => none

/-- The layers that a text describes, checked or not. -/
def draft? (text : String) : Option (List LayerDraft) := (Json.parse? text).bind draftOfJson?

end Definition

end LayerGraph
