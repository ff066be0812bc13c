import LayerGraph.Tensor.Descriptor

/-!
# Tensor memory

Memory is a storage kind and a row of elements of its width, as bit vectors. A tensor
is memory that fits a descriptor: right storage, right number of elements.
-/

set_option autoImplicit false

namespace LayerGraph

structure Memory where
  storage : Storage
  data : Array (BitVec storage.bits)
  deriving DecidableEq

structure Extent where
  storage : Storage
  size : Nat
  deriving DecidableEq

namespace Storage

def format? : Storage → Option BinaryFormat
  | .f16 => some .half
  | .f32 => some .single
  | .bf16 => some ⟨7, 8⟩
  | _ => none

/-- The element with the given value: raw bits for floating-point kinds, the integer
otherwise. Nothing when it is out of range. -/
def element? (s : Storage) (value : Int) : Option (BitVec s.bits) :=
  let half : Nat := 1 <<< (s.bits - 1)
  let low : Int := if s.isSigned then -(half : Int) else 0
  let high : Nat := if s.isSigned then half else 1 <<< s.bits
  if low ≤ value ∧ value < high then some (BitVec.ofInt s.bits value) else none

/-- Value of an element; nothing for floating-point patterns that are not numbers. -/
def value? (s : Storage) (element : BitVec s.bits) : Option Int :=
  match s.format? with
  | some format => if format.isNaN element.toNat then none else some (element.toNat : Int)
  | none => some (if s.isSigned then element.toInt else (element.toNat : Int))

end Storage

namespace Memory

def size (m : Memory) : Nat := m.data.size

def extent (m : Memory) : Extent := ⟨m.storage, m.size⟩

def isEmpty (m : Memory) : Bool := m.data.isEmpty

def zeroed (s : Storage) (size : Nat) : Memory := ⟨s, Array.replicate size 0⟩

def emptied (m : Memory) : Memory := ⟨m.storage, #[]⟩

def as? (m : Memory) (s : Storage) : Option (Array (BitVec s.bits)) :=
  if h : m.storage = s then some (h ▸ m.data) else none

def values (m : Memory) : List (Option Int) := m.data.toList.map m.storage.value?

@[simp]
theorem extent_zeroed (s : Storage) (n : Nat) : (zeroed s n).extent = ⟨s, n⟩ := by
  simp [zeroed, extent, size]

end Memory

structure Tensor where
  descriptor : Descriptor
  memory : Memory
  extent_eq : memory.extent = ⟨descriptor.dataType.storage, descriptor.numElements⟩

def Descriptor.extent (d : Descriptor) : Extent := ⟨d.dataType.storage, d.numElements⟩

namespace Tensor

/-- Binds memory to a descriptor; storage is checked before the number of elements. -/
def make (d : Descriptor) (m : Memory) : Except DescriptorError Tensor :=
  if hs : d.dataType.storage = m.storage then
    if hl : d.numElements = m.size then
      .ok ⟨d, m, by simp [Memory.extent, hs, hl]⟩
    else .error (.lengthMismatch d.numElements m.size)
  else .error (.storageMismatch d.dataType m.storage)

end Tensor

end LayerGraph
