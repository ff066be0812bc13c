import LayerGraph.Tensor.Layout

/-!
# Layout in bounded arithmetic

The layout computed number by number, with every number held to the range of indexes. A
product or a sum past the limit, a division by zero and a look past the end of a list all
give nothing.
-/

set_option autoImplicit false

namespace LayerGraph

namespace Bounded

def index? (n : Nat) : Option Nat := if n < indexLimit then some n else none

def divMod? (n divisor : Nat) : Option (Nat × Nat) :=
  if divisor = 0 then none else some (n / divisor, n % divisor)

/-- Number of elements that dimensions hold, multiplied up from the first. -/
def count? (dims : List Nat) : Option Nat :=
  dims.foldlM (fun count dim => index? (count * dim)) 1

/-- Strides found from the last axis on, and the product that would be the next one. -/
def scanStrides? : List Nat → Option (List Nat × Nat)
  | [] => some ([], 1)
  | dim :: rest =>
    (scanStrides? rest).bind fun scanned =>
      (index? (scanned.2 * dim)).map fun next => (scanned.2 :: scanned.1, next)

def strides? (dims : List Nat) : Option (List Nat) := (scanStrides? dims).map (·.1)

/-- Coordinates of a position, last axis first to be split off, and what is left over. -/
def splitIndex? : List Nat → Nat → Option (List Nat × Nat)
  | [], index => some ([], index)
  | dim :: rest, index =>
    (splitIndex? rest index).bind fun split =>
      (divMod? split.2 dim).map fun parts => (parts.2 :: split.1, parts.1)

def unravel? (dims : List Nat) (index : Nat) : Option (List Nat) :=
  (splitIndex? dims index).map (·.1)

def sourceIndex? (inputStrides source coords : List Nat) : Option Nat :=
  (coords.zip source).foldlM (fun total entry =>
    inputStrides[entry.2]?.bind fun stride =>
      (index? (entry.1 * stride)).bind fun step => index? (total + step)) 0

def gatherTable? (dims source : List Nat) : Option (List Nat) :=
  (source.mapM fun axis => dims[axis]?).bind fun outputDims =>
    (strides? dims).bind fun inputStrides =>
      (count? outputDims).bind fun count =>
        (List.range count).mapM fun index =>
          (unravel? outputDims index).bind (sourceIndex? inputStrides source)

def gathered? {α : Type} (table : List Nat) (input : Array α) : Option (List α) :=
  table.mapM fun index => input[index]?

end Bounded

end LayerGraph
