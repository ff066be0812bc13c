import LayerGraph.Optimizer.Pair
import LayerGraph.Tensor.Layout

/-!
# Reorderings that move nothing

A permute or transpose that leaves every element where it is becomes a reshape in the
same place.
-/

set_option autoImplicit false

namespace LayerGraph

/-- Replaces a node by a reshape with its output descriptor and a name made from its own. -/
def Edit.replaceByReshape (rule : String) (id : NodeId) : Edit Applied := do
  let old ← check fun g => g.requireNode id
  match old.outputDescriptor? 0 with
  | none => throw (.missingDescriptor ⟨id, old.name⟩ 0)
  | some descriptor =>
    let reshape ← insert ⟨id, 0⟩ (.reshape descriptor.shape)
      ("merged-" ++ old.name ++ "-into-reshape") descriptor
    moveAll ⟨id, 0⟩ ⟨reshape, 0⟩
    addRelated reshape id
    let node ← check fun g => g.requireNode id
    let _ ← remove id
    return ⟨rule, [node.label], some reshape⟩

namespace Rule

def inputDims? (g : Graph) (id : NodeId) : Option (List Nat) := do
  let node ← g.node? id
  let _ ← node.outputDescriptor? 0
  let input ← g.inputDescriptor? ⟨node.id, 0⟩
  return input.shape.dims

/-- Whether a node reads its input axes in the order `source` without moving elements. -/
def movesNothing (g : Graph) (id : NodeId) (source : List Nat) : Bool :=
  (inputDims? g id).any fun dims => isLayoutPreserving dims source

def transposeMovesNothing (g : Graph) (id : NodeId) : Bool :=
  (g.node? id).any fun node =>
    match node.operation with
    | .transpose p => movesNothing g id p.axes
    | _ => false

def permuteMovesNothing (g : Graph) (id : NodeId) : Bool :=
  (g.node? id).any fun node =>
    match node.operation with
    | .permute p => movesNothing g id p.inverse.axes
    | _ => false

def permuteAsReshape : Rule where
  name := "PermuteAsReshape"
  admits := Operation.isPermute
  fits := permuteMovesNothing
  apply id := Edit.replaceByReshape "PermuteAsReshape" id

def transposeAsReshape : Rule where
  name := "TransposeAsReshape"
  admits := Operation.isTranspose
  fits := transposeMovesNothing
  apply id := Edit.replaceByReshape "TransposeAsReshape" id

def standard : List Rule :=
  [consecutiveReshapes, inversePermutes, inverseTransposes, permuteAsReshape, transposeAsReshape]

end Rule

end LayerGraph
