import LayerGraph.Tensor.Encoding

/-!
# Operations

What a node computes. Boundary operations carry the id a caller binds memory to; a
permute moves input axis `i` to output axis `mappings[i]`, and a transpose reads output
axis `j` from input axis `permutation[j]`.
-/

set_option autoImplicit false

namespace LayerGraph

inductive OperationKind where
  | input
  | output
  | permute
  | transpose
  | reshape
  | addition
  deriving DecidableEq, Repr

namespace OperationKind

def all : List OperationKind := [.input, .output, .permute, .transpose, .reshape, .addition]

def rank : OperationKind → Nat
  | .input => 0
  | .output => 1
  | .permute => 2
  | .transpose => 3
  | .reshape => 4
  | .addition => 5

def numInputs : OperationKind → Nat
  | .input => 0
  | .addition => 2
  | _ => 1

def numOutputs : OperationKind → Nat
  | .output => 0
  | _ => 1

def name : OperationKind → String
  | .input => "Input"
  | .output => "Output"
  | .permute => "Permute"
  | .transpose => "Transpose"
  | .reshape => "Reshape"
  | .addition => "Addition"

def label : OperationKind → String
  | .input => "input"
  | .output => "output"
  | .permute => "permute"
  | .transpose => "transpose"
  | .reshape => "reshape"
  | .addition => "addition"

def ofName? (text : String) : Option OperationKind := all.find? fun k => k.name == text

def ofJson? (j : Json) : Option OperationKind := j.variant?.bind ofName?

theorem rank_injective {a b : OperationKind} (h : a.rank = b.rank) : a = b := by
  cases a <;> cases b <;> simp [rank] at h ⊢

end OperationKind

inductive Operation where
  | input (bindingId : Int32)
  | output (bindingId : Int32)
  | permute (mappings : Permutation)
  | transpose (permutation : Permutation)
  | reshape (target : Shape)
  | addition
  deriving DecidableEq

namespace Operation

def kind : Operation → OperationKind
  | .input _ => .input
  | .output _ => .output
  | .permute _ => .permute
  | .transpose _ => .transpose
  | .reshape _ => .reshape
  | .addition => .addition

def toJson : Operation → Json
  | .input id => .record [("kind", .text "input"), ("binding_id", .int id.toInt)]
  | .output id => .record [("kind", .text "output"), ("binding_id", .int id.toInt)]
  | .permute p => .record [("kind", .text "permute"), ("mappings", p.toJson)]
  | .transpose p => .record [("kind", .text "transpose"), ("permutation", p.toJson)]
  | .reshape s => .record [("kind", .text "reshape"), ("target_shape", s.toJson)]
  | .addition => .record [("kind", .text "addition")]

def parameter? (name : String) (parameters : Json) : Option Json :=
  match parameters.record? [name] with
  | some [value] => value
  | _ => none

/-- Operation of a kind with its parameters, themselves a record. An addition has none,
and ignores the fields of an object. -/
def ofParameters? (kind : String) (parameters : Json) : Option Operation :=
  if kind = "input" then
    (parameter? "binding_id" parameters).bind fun j => j.asInt32?.map .input
  else if kind = "output" then
    (parameter? "binding_id" parameters).bind fun j => j.asInt32?.map .output
  else if kind = "permute" then
    (parameter? "mappings" parameters).bind fun j => (Permutation.ofJson? j).map .permute
  else if kind = "transpose" then
    (parameter? "permutation" parameters).bind fun j => (Permutation.ofJson? j).map .transpose
  else if kind = "reshape" then
    (parameter? "target_shape" parameters).bind fun j => (Shape.ofJson? j).map .reshape
  else if kind = "addition" then
    match parameters with
    | .object _ => some .addition
    | .array [] => some .addition
    | _ => none
  else none

/-- Reads an operation that stands inside `enclosing` containers. The kind may come
anywhere in an object, once, and first in an array; every part of the value is read,
also the fields that are then ignored. -/
def ofJson? (enclosing : Nat) (j : Json) : Option Operation :=
  if j.isReadable (Json.nestingLimit - enclosing) then
    match j with
    | .array (kind :: parameters) =>
      kind.asText?.bind fun kind => ofParameters? kind (.array parameters)
    | .object fields =>
      match fields.filter (fun entry => entry.1 == some "kind") with
      | [(_, kind)] =>
        kind.asText?.bind fun kind =>
          ofParameters? kind (.object (fields.filter fun entry => entry.1 != some "kind"))
      | _ => none
    | _ => none
  else none

end Operation

end LayerGraph
