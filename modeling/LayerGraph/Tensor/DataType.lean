/-!
# Element types

The numeric types a tensor can carry, and the storage that backs one element. Types
are ordered as they are listed.
-/

set_option autoImplicit false

namespace LayerGraph

inductive Storage where
  | f16
  | f32
  | bf16
  | u8
  | i8
  | i16
  | i32
  | i64
  deriving DecidableEq, Repr

namespace Storage

def all : List Storage := [.f16, .f32, .bf16, .u8, .i8, .i16, .i32, .i64]

def name : Storage → String
  | .f16 => "F16"
  | .f32 => "F32"
  | .bf16 => "Bf16"
  | .u8 => "U8"
  | .i8 => "I8"
  | .i16 => "I16"
  | .i32 => "I32"
  | .i64 => "I64"

def size : Storage → Nat
  | .u8 | .i8 => 1
  | .f16 | .bf16 | .i16 => 2
  | .f32 | .i32 => 4
  | .i64 => 8

def bits (s : Storage) : Nat := 8 * s.size

/-- Whether elements are read as two's complement integers. -/
def isSigned : Storage → Bool
  | .i8 | .i16 | .i32 | .i64 => true
  | _ => false

def ofName? (text : String) : Option Storage := all.find? fun s => s.name == text

end Storage

inductive DataType where
  | float16
  | float32
  | bfloat16
  | qasymmU8
  | qasymmS8
  | qsymmS8
  | qsymmS16
  | signed32
  | signed64
  | boolean
  deriving DecidableEq, Repr

namespace DataType

def all : List DataType :=
  [.float16, .float32, .bfloat16, .qasymmU8, .qasymmS8, .qsymmS8, .qsymmS16,
    .signed32, .signed64, .boolean]

def rank : DataType → Nat
  | .float16 => 0
  | .float32 => 1
  | .bfloat16 => 2
  | .qasymmU8 => 3
  | .qasymmS8 => 4
  | .qsymmS8 => 5
  | .qsymmS16 => 6
  | .signed32 => 7
  | .signed64 => 8
  | .boolean => 9

def name : DataType → String
  | .float16 => "Float16"
  | .float32 => "Float32"
  | .bfloat16 => "BFloat16"
  | .qasymmU8 => "QAsymmU8"
  | .qasymmS8 => "QAsymmS8"
  | .qsymmS8 => "QSymmS8"
  | .qsymmS16 => "QSymmS16"
  | .signed32 => "Signed32"
  | .signed64 => "Signed64"
  | .boolean => "Boolean"

def phrase : DataType → String
  | .float16 => "16-bit float"
  | .float32 => "32-bit float"
  | .bfloat16 => "16-bit brain float"
  | .qasymmU8 => "asymmetric quantized unsigned 8-bit"
  | .qasymmS8 => "asymmetric quantized signed 8-bit"
  | .qsymmS8 => "symmetric quantized signed 8-bit"
  | .qsymmS16 => "symmetric quantized signed 16-bit"
  | .signed32 => "signed 32-bit integer"
  | .signed64 => "signed 64-bit integer"
  | .boolean => "boolean"

def isQuantized : DataType → Bool
  | .qasymmU8 | .qasymmS8 | .qsymmS8 | .qsymmS16 => true
  | _ => false

def isSymmetric : DataType → Bool
  | .qsymmS8 | .qsymmS16 => true
  | _ => false

def isFloat : DataType → Bool
  | .float16 | .float32 | .bfloat16 => true
  | _ => false

def storage : DataType → Storage
  | .float16 => .f16
  | .float32 => .f32
  | .bfloat16 => .bf16
  | .qasymmU8 | .boolean => .u8
  | .qasymmS8 | .qsymmS8 => .i8
  | .qsymmS16 => .i16
  | .signed32 => .i32
  | .signed64 => .i64

def ofName? (text : String) : Option DataType := all.find? fun t => t.name == text

theorem rank_injective {a b : DataType} (h : a.rank = b.rank) : a = b := by
  cases a <;> cases b <;> simp [rank] at h ⊢

theorem ofName?_name (t : DataType) : ofName? t.name = some t := by
  cases t <;> decide

end DataType

end LayerGraph
