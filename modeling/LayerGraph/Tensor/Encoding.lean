import LayerGraph.Json.Record
import LayerGraph.Tensor.Permutation
import LayerGraph.Tensor.Descriptor

/-!
# Tensor types in JSON

Reading goes through the same constructors as everything else, so a text cannot bring
in a shape, permutation or descriptor that they refuse.
-/

set_option autoImplicit false

namespace LayerGraph

namespace DataType

def ofJson? (j : Json) : Option DataType := j.variant?.bind ofName?

def toJson (t : DataType) : Json := .text t.name

end DataType

namespace Shape

def ofJson? (j : Json) : Option Shape :=
  j.asNats?.bind fun dims => (ofDims dims).toOption

def toJson (s : Shape) : Json := .array (s.dims.map .nat)

end Shape

namespace Permutation

def ofJson? (j : Json) : Option Permutation := j.asNats?.bind ofAxes?

def toJson (p : Permutation) : Json := .array (p.axes.map .nat)

end Permutation

namespace Quantization

/-- A scale is any number, rounded to single precision. -/
def scaleOfJson? : Json → Option (BitVec 32)
  | .number n => n.toSingle?.map (BitVec.ofNat 32)
  | _ => none

def ofJson? (j : Json) : Option Quantization :=
  match j.record? ["scale", "offset"] with
  | some [some scale, some offset] => do
    let scale ← scaleOfJson? scale
    let offset ← offset.asInt32?
    return ⟨scale, offset⟩
  | _ => none

def toJson (q : Quantization) : Json :=
  .record [("scale", .single q.scale.toNat), ("offset", .int q.offset.toInt)]

end Quantization

namespace Descriptor

/-- Null stands for no quantization, like a missing field. -/
def quantizationOfJson? : Option Json → Option (Option Quantization)
  | none => some none
  | some .null => some none
  | some j => (Quantization.ofJson? j).map some

def ofJson? (j : Json) : Option Descriptor :=
  match j.record? ["shape", "data_type", "quantization"] with
  | some [some shape, some dataType, quantization] => do
    let shape ← Shape.ofJson? shape
    let dataType ← DataType.ofJson? dataType
    let quantization ← quantizationOfJson? quantization
    (make shape dataType quantization).toOption
  | _ => none

def toJson (d : Descriptor) : Json :=
  let base := [("shape", d.shape.toJson), ("data_type", d.dataType.toJson)]
  match d.quantization with
  | none => .record base
  | some q => .record (base ++ [("quantization", q.toJson)])

end Descriptor

end LayerGraph
