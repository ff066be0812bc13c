import LayerGraph.Tensor.Permutation

/-!
# Permutations by tables

The check of a permutation and its inverse, each as one pass over the axes that fills a table.
The check marks every axis, which must be in the table and not marked before. The inverse is a
table of positions, each written at the axis that stands there, and nothing is checked on the way.
-/

set_option autoImplicit false

namespace LayerGraph

namespace Permutation

def mark? (marks : List Bool) (axis : Nat) : Option (List Bool) :=
  if marks[axis]? = some false then some (marks.set axis true) else none

def marked? (axes : List Nat) : Option (List Bool) :=
  axes.foldlM mark? (List.replicate axes.length false)

/-- The table of positions after all of them are written; zero where none is. -/
def written (axes : List Nat) : List Nat := scatterDims (List.range axes.length) axes

end Permutation

end LayerGraph
