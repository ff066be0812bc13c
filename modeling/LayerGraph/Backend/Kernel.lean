import LayerGraph.Workload.Basic
import LayerGraph.Tensor.Layout

/-!
# Kernels

A kernel computes the elements of one output from those of its inputs: a copy, a
gather through a table, or a sum. It is told how many elements the output has room for,
and refuses inputs that do not fit.
-/

set_option autoImplicit false

namespace LayerGraph

abbrev Elements (s : Storage) := Array (BitVec s.bits)

abbrev ElementsOf (s : Storage) (count : Nat) := { elements : Elements s // elements.size = count }

namespace Kernel

variable {s : Storage}

def copy (input : Elements s) (room : Nat) : Except String (ElementsOf s room) :=
  if h : input.size = room then .ok ⟨input, h⟩
  else .error ("cannot copy " ++ toString input.size ++ " elements into " ++ toString room)

def gathered (table : List Nat) (input : Elements s) : Elements s :=
  (table.map fun index => input.getD index 0).toArray

theorem size_gathered (table : List Nat) (input : Elements s) :
    (gathered table input).size = table.length := by
  simp [gathered]

def gather (table : List Nat) (input : Elements s) (room : Nat) :
    Except String (ElementsOf s room) :=
  if h : input.size = table.length ∧ room = table.length then
    .ok ⟨gathered table input, by rw [size_gathered, h.2]⟩
  else
    .error ("expected " ++ toString table.length ++ " elements, got input " ++
      toString input.size ++ " and output " ++ toString room)

def sum (add : BitVec s.bits → BitVec s.bits → BitVec s.bits) (left right : Elements s)
    (room : Nat) : Except String (ElementsOf s room) :=
  if h : left.size = room ∧ right.size = room then
    .ok ⟨Array.zipWith add left right, by simp [h.1, h.2]⟩
  else
    .error ("operand lengths " ++ toString left.size ++ " and " ++ toString right.size ++
      " do not match output " ++ toString room)

end Kernel

def typedInput (workload : String) (s : Storage) (inputs : List Memory) (index : Nat) :
    Except WorkloadError (Elements s) :=
  match inputs[index]? with
  | none => .error (.missingTensor workload .input index)
  | some memory =>
    match memory.as? s with
    | none => .error (.storageMismatch workload s memory.storage)
    | some elements => .ok elements

def writeFirst (workload : String) (s : Storage)
    (compute : (room : Nat) → Except String (ElementsOf s room)) : List Memory → WorkloadRun
  | [] => ⟨[], .error (.missingTensor workload .output 0)⟩
  | memory :: rest =>
    if memory.storage = s then
      match compute memory.size with
      | .error reason => ⟨memory :: rest, .error (.execution workload reason)⟩
      | .ok elements => ⟨⟨s, elements.1⟩ :: rest, .ok ()⟩
    else ⟨memory :: rest, .error (.storageMismatch workload s memory.storage)⟩

theorem extents_writeFirst (workload : String) (s : Storage)
    (compute : (room : Nat) → Except String (ElementsOf s room)) (outputs : List Memory) :
    (writeFirst workload s compute outputs).outputs.map Memory.extent =
      outputs.map Memory.extent := by
  cases outputs with
  | nil => rfl
  | cons memory rest =>
    rw [writeFirst]
    split
    · rename_i hs
      split
      · rfl
      · rename_i elements _
        simp [Memory.extent, Memory.size, hs, elements.2]
    · rfl

def runUnary (workload : String) (s : Storage)
    (kernel : Elements s → (room : Nat) → Except String (ElementsOf s room))
    (inputs outputs : List Memory) : WorkloadRun :=
  match typedInput workload s inputs 0 with
  | .error error => ⟨outputs, .error error⟩
  | .ok input => writeFirst workload s (kernel input) outputs

theorem extents_runUnary (workload : String) (s : Storage)
    (kernel : Elements s → (room : Nat) → Except String (ElementsOf s room))
    (inputs outputs : List Memory) :
    (runUnary workload s kernel inputs outputs).outputs.map Memory.extent =
      outputs.map Memory.extent := by
  rw [runUnary]
  split
  · rfl
  · exact extents_writeFirst _ _ _ _

def runBinary (workload : String) (s : Storage)
    (kernel : Elements s → Elements s → (room : Nat) → Except String (ElementsOf s room))
    (inputs outputs : List Memory) : WorkloadRun :=
  match typedInput workload s inputs 0 with
  | .error error => ⟨outputs, .error error⟩
  | .ok left =>
    match typedInput workload s inputs 1 with
    | .error error => ⟨outputs, .error error⟩
    | .ok right => writeFirst workload s (kernel left right) outputs

theorem extents_runBinary (workload : String) (s : Storage)
    (kernel : Elements s → Elements s → (room : Nat) → Except String (ElementsOf s room))
    (inputs outputs : List Memory) :
    (runBinary workload s kernel inputs outputs).outputs.map Memory.extent =
      outputs.map Memory.extent := by
  rw [runBinary]
  split
  · rfl
  · split
    · rfl
    · exact extents_writeFirst _ _ _ _

end LayerGraph
