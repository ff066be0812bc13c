import LayerGraph.Optimizer.Rule

/-!
# Rules for a pair of nodes

Two reshapes in a row are one, and a permute or transpose undone by the next one is
none. A parent that other nodes still read stays where it is.
-/

set_option autoImplicit false

namespace LayerGraph

/-- Lets the consumers of `child` read what feeds `parent`, then removes `child` and,
once nothing reads it, `parent`. Returns the removed nodes. -/
def Edit.bypassPair (parent child : NodeId) : Edit (List NodeLabel) := do
  let source ← check fun g => g.requireProducer ⟨parent, 0⟩
  moveAll ⟨child, 0⟩ source
  let childNode ← check fun g => g.requireNode child
  let _ ← remove child
  let parentNode ← check fun g => g.requireNode parent
  if parentNode.hasConsumers then return [childNode.label]
  let _ ← remove parent
  return [childNode.label, parentNode.label]

namespace Rule

def readsReshape (g : Graph) (id : NodeId) : Bool :=
  (g.parent? id).any fun parent => parent.operation.isReshape

/-- Whether the tensor into `parent` is described like the one out of `child`. -/
def restores (g : Graph) (parent child : NodeId) : Bool :=
  let before := g.inputDescriptor? ⟨parent, 0⟩
  before.isSome && before == g.outputDescriptor? ⟨child, 0⟩

/-- Folds a reshape of a reshape into one reshape, or drops both when the outer one
restores the tensor the inner one reads. -/
def consecutiveReshapes : Rule where
  name := "OptimizeConsecutiveReshapes"
  admits := Operation.isReshape
  fits := readsReshape
  apply id := do
    let parent ← Edit.parent id
    if restores (← get) parent id then
      let replaced ← Edit.bypassPair parent id
      return ⟨"OptimizeConsecutiveReshapes", replaced, none⟩
    let source ← Edit.check fun g => g.requireProducer ⟨parent, 0⟩
    let _ ← Edit.disconnect ⟨id, 0⟩
    Edit.connect source ⟨id, 0⟩
    let parentNode ← Edit.check fun g => g.requireNode parent
    if parentNode.hasConsumers then return ⟨"OptimizeConsecutiveReshapes", [], some id⟩
    Edit.addRelated id parent
    let _ ← Edit.remove parent
    return ⟨"OptimizeConsecutiveReshapes", [parentNode.label], some id⟩

/-- Whether the parent of a node cancels it and the tensors on both sides of the pair
are described alike. -/
def undoesParent (cancel : Operation → Operation → Bool) (g : Graph) (id : NodeId) : Bool :=
  match g.node? id, g.parent? id with
  | some child, some parent =>
    cancel parent.operation child.operation &&
      (match g.inputDescriptor? ⟨parent.id, 0⟩, child.outputDescriptor? 0 with
       | some before, some after => before == after
       | _, _ => false)
  | _, _ => false

/-- Whether reading through `first` and then through `second` is reading straight. -/
def axesCancel (first second : List Nat) : Bool :=
  first.length == second.length &&
    second.zipIdx.all fun (read, axis) => first[read]? == some axis

def transposesCancel : Operation → Operation → Bool
  | .transpose first, .transpose second => axesCancel first.axes second.axes
  | _, _ => false

def permutesCancel : Operation → Operation → Bool
  | .permute first, .permute second => axesCancel second.axes first.axes
  | _, _ => false

def inversePermutes : Rule where
  name := "OptimizeInversePermutes"
  admits := Operation.isPermute
  fits := undoesParent permutesCancel
  apply id := do
    let parent ← Edit.parent id
    let replaced ← Edit.bypassPair parent id
    return ⟨"OptimizeInversePermutes", replaced, none⟩

def inverseTransposes : Rule where
  name := "OptimizeInverseTransposes"
  admits := Operation.isTranspose
  fits := undoesParent transposesCancel
  apply id := do
    let parent ← Edit.parent id
    let replaced ← Edit.bypassPair parent id
    return ⟨"OptimizeInverseTransposes", replaced, none⟩

end Rule

end LayerGraph
