import LayerGraph.Tensor.DataType
import LayerGraph.Number.Decimal

/-!
# Shapes

A shape is a list of positive dimensions whose product fits in 64 bits. Dimensions are
judged from the first on: a zero is reported at its own axis, and an overflow as soon
as the running product leaves the range.
-/

set_option autoImplicit false

namespace LayerGraph

inductive DescriptorError where
  | emptyShape
  | zeroDimension (axis : Nat) (dims : List Nat)
  | elementCountOverflow (dims : List Nat)
  | missingQuantization (dataType : DataType)
  | unexpectedQuantization (dataType : DataType)
  | nonZeroSymmetricOffset (dataType : DataType) (offset : Int32)
  | invalidScale (scale : BitVec 32)
  | lengthMismatch (expected actual : Nat)
  | storageMismatch (dataType : DataType) (actual : Storage)
  deriving DecidableEq

def natListText (ns : List Nat) : String :=
  "[" ++ ", ".intercalate (ns.map toString) ++ "]"

namespace DescriptorError

def message : DescriptorError → String
  | emptyShape => "tensor shape must have at least one dimension"
  | zeroDimension axis dims =>
    "dimension " ++ toString axis ++ " of shape " ++ natListText dims ++ " must be positive"
  | elementCountOverflow dims =>
    "element count of shape " ++ natListText dims ++ " overflows usize"
  | missingQuantization t => "data type " ++ t.name ++ " requires quantization info"
  | unexpectedQuantization t => "data type " ++ t.name ++ " does not carry quantization info"
  | nonZeroSymmetricOffset t offset =>
    "symmetric data type " ++ t.name ++ " requires a zero offset, got " ++ toString offset.toInt
  | invalidScale scale =>
    "quantization scale must be finite and positive, got " ++ singleText scale.toNat
  | lengthMismatch expected actual =>
    "memory holds " ++ toString actual ++ " elements but the descriptor expects " ++
      toString expected
  | storageMismatch t actual =>
    "memory storage " ++ actual.name ++ " cannot back data type " ++ t.name

end DescriptorError

def indexLimit : Nat := UInt64.size

def volume (dims : List Nat) : Nat := dims.foldr (· * ·) 1

@[simp]
theorem volume_nil : volume [] = 1 := rfl

@[simp]
theorem volume_cons (dim : Nat) (rest : List Nat) : volume (dim :: rest) = dim * volume rest := rfl

structure Shape where
  dims : List Nat
  dims_ne_nil : dims ≠ []
  dims_pos : ∀ d ∈ dims, 0 < d
  volume_lt : volume dims < indexLimit
  deriving DecidableEq

namespace Shape

/-- First fault among the dimensions from `axis` on, when the product so far is `count`. -/
def faultFrom (dims : List Nat) : Nat → Nat → List Nat → Option DescriptorError
  | _, _, [] => none
  | axis, count, dim :: rest =>
    if dim = 0 then some (.zeroDimension axis dims)
    else if indexLimit ≤ count * dim then some (.elementCountOverflow dims)
    else faultFrom dims (axis + 1) (count * dim) rest

def fault? (dims : List Nat) : Option DescriptorError :=
  if dims.isEmpty then some .emptyShape else faultFrom dims 0 1 dims

theorem faultFrom_eq_none {dims rest : List Nat} {axis count : Nat} (hc : count < indexLimit)
    (h : faultFrom dims axis count rest = none) :
    (∀ d ∈ rest, 0 < d) ∧ count * volume rest < indexLimit := by
  induction rest generalizing axis count with
  | nil => simpa using hc
  | cons dim rest ih =>
    rw [faultFrom] at h
    split at h
    · cases h
    · split at h
      · cases h
      · rename_i hz hl
        have hr := ih (by omega) h
        refine ⟨?_, ?_⟩
        · intro d hd
          rcases List.mem_cons.1 hd with rfl | hd
          · omega
          · exact hr.1 d hd
        · rw [volume_cons, ← Nat.mul_assoc]
          exact hr.2

theorem fault?_eq_none {dims : List Nat} (h : fault? dims = none) :
    dims ≠ [] ∧ (∀ d ∈ dims, 0 < d) ∧ volume dims < indexLimit := by
  rw [fault?] at h
  split at h
  · cases h
  · rename_i hne
    have hr := faultFrom_eq_none (by decide) h
    exact ⟨by simpa using hne, hr.1, by simpa using hr.2⟩

def ofDims (dims : List Nat) : Except DescriptorError Shape :=
  match h : fault? dims with
  | some fault => .error fault
  | none =>
    have hd := fault?_eq_none h
    .ok ⟨dims, hd.1, hd.2.1, hd.2.2⟩

def rank (s : Shape) : Nat := s.dims.length

def numElements (s : Shape) : Nat := volume s.dims

def text (s : Shape) : String := "[" ++ "x".intercalate (s.dims.map toString) ++ "]"

end Shape

end LayerGraph
