import LayerGraph.Tensor.Permutation

/-!
# Row-major layout

Coordinates and positions of elements, and the table that says for every position of a
reordered tensor which position of the given one it reads. An axis reordering leaves the
elements where they are when the axes longer than one keep their order.
-/

set_option autoImplicit false

namespace LayerGraph

def strides : List Nat → List Nat
  | [] => []
  | _ :: rest => volume rest :: strides rest

/-- Coordinates of a position, last axis first to be split off, and what is left over. -/
def splitIndex : List Nat → Nat → List Nat × Nat
  | [], index => ([], index)
  | dim :: rest, index =>
    let (coords, left) := splitIndex rest index
    (left % dim :: coords, left / dim)

def unravel (dims : List Nat) (index : Nat) : List Nat := (splitIndex dims index).1

def sourceIndex (inputStrides source coords : List Nat) : Nat :=
  (coords.zipWith (fun coord axis => coord * inputStrides.getD axis 0) source).foldr (· + ·) 0

/-- For every output position, the input position it reads, where output axis `j` reads
input axis `source[j]`. -/
def gatherTable (dims source : List Nat) : List Nat :=
  let outputDims := Permutation.gatherDims dims source
  let inputStrides := strides dims
  (List.range (volume outputDims)).map fun index =>
    sourceIndex inputStrides source (unravel outputDims index)

/-- Whether the axes longer than one come in ascending order, after `last`. -/
def keepsOrder (dims : List Nat) : Option Nat → List Nat → Bool
  | _, [] => true
  | last, axis :: rest =>
    if dims.getD axis 0 = 1 then keepsOrder dims last rest
    else if last.any fun previous => decide (axis < previous) then false
    else keepsOrder dims (some axis) rest

/-- Whether reading axes in the order `source` leaves the row-major order unchanged. -/
def isLayoutPreserving (dims source : List Nat) : Bool :=
  dims.length == source.length && keepsOrder dims none source

end LayerGraph
