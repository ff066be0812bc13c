import LayerGraph.Tensor.Shape

/-!
# Tensor descriptors

A descriptor is a shape, an element type and, for quantized types only, a scale and an
offset. The scale is finite and positive, and symmetric types have no offset.
-/

set_option autoImplicit false

namespace LayerGraph

/-- Affine quantization: a stored `q` stands for `scale * (q - offset)`. The scale is a
single-precision pattern. -/
structure Quantization where
  scale : BitVec 32
  offset : Int32
  deriving DecidableEq

namespace Quantization

def symmetric (scale : BitVec 32) : Quantization := ⟨scale, 0⟩

/-- Whether a pattern is a finite number above zero. -/
def isScale (scale : BitVec 32) : Bool :=
  match BinaryFormat.single.decode scale.toNat with
  | .finite negative significand _ => !negative && significand != 0
  | _ => false

end Quantization

def DataType.Admits (t : DataType) : Option Quantization → Prop
  | none => t.isQuantized = false
  | some q =>
    t.isQuantized = true ∧ Quantization.isScale q.scale = true ∧
      (t.isSymmetric = true → q.offset = 0)

structure Descriptor where
  shape : Shape
  dataType : DataType
  quantization : Option Quantization
  admitted : dataType.Admits quantization
  deriving DecidableEq

namespace Descriptor

def make (shape : Shape) (t : DataType) : Option Quantization → Except DescriptorError Descriptor
  | none =>
    if h : t.isQuantized = true then .error (.missingQuantization t)
    else .ok ⟨shape, t, none, by simpa [DataType.Admits] using h⟩
  | some q =>
    if h : t.isQuantized = true then
      if hs : Quantization.isScale q.scale = true then
        if ho : t.isSymmetric = true ∧ q.offset ≠ 0 then
          .error (.nonZeroSymmetricOffset t q.offset)
        else
          .ok ⟨shape, t, some q, h, hs, fun hsym =>
            Classical.byContradiction fun hne => ho ⟨hsym, hne⟩⟩
      else .error (.invalidScale q.scale)
    else .error (.unexpectedQuantization t)

/-- Descriptor from dimensions; a faulty shape is reported first. -/
def ofDims (dims : List Nat) (t : DataType) (q : Option Quantization) :
    Except DescriptorError Descriptor :=
  match Shape.ofDims dims with
  | .error fault => .error fault
  | .ok shape => make shape t q

def numElements (d : Descriptor) : Nat := d.shape.numElements

def numBytes (d : Descriptor) : Nat := d.numElements * d.dataType.storage.size

def withShape (d : Descriptor) (shape : Shape) : Descriptor := { d with shape := shape }

def text (d : Descriptor) : String :=
  let base := d.dataType.name ++ ":" ++ d.shape.text
  match d.quantization with
  | none => base
  | some q =>
    base ++ " (scale=" ++ singleText q.scale.toNat ++ ", offset=" ++ toString q.offset.toInt ++ ")"

end Descriptor

end LayerGraph
