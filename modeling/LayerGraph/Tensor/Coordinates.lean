import LayerGraph.Tensor.Layout

/-!
# Reordering by coordinates

What it means to reorder the axes of a tensor, said element by element: the element at
some coordinates of the output is the one of the input that has, on the axis each output
axis reads, the coordinate on that output axis.
-/

set_option autoImplicit false

namespace LayerGraph

/-- All coordinates within some dimensions, in row-major order. -/
def coordinates : List Nat → List (List Nat)
  | [] => [[]]
  | dim :: rest => (List.range dim).flatMap fun i => (coordinates rest).map (i :: ·)

def position : List Nat → List Nat → Nat
  | _ :: dims, coord :: coords => coord * volume dims + position dims coords
  | _, _ => 0

/-- Input coordinates read at output coordinates: on each input axis, the coordinate on
the output axis that reads it. -/
def sourceCoordinates (source coords : List Nat) : List Nat :=
  (List.range source.length).map fun axis => coords.getD (source.idxOf axis) 0

/-- Elements of a tensor with the given dimensions, seen with its axes reordered. -/
def reordered {α : Type} (default : α) (dims source : List Nat) (data : Array α) : List α :=
  (coordinates (Permutation.gatherDims dims source)).map fun coords =>
    data.getD (position dims (sourceCoordinates source coords)) default

end LayerGraph
