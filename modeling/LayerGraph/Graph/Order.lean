import LayerGraph.Graph.Basic

/-!
# Topological order

Nodes are listed once all their producers have been, and among those that are ready the
one inserted earliest comes first. A counter for each node holds the edges into it that
are still open.
-/

set_option autoImplicit false

namespace LayerGraph

namespace Graph

structure ReadyKey where
  seq : Nat
  id : NodeId
  deriving DecidableEq

def ReadyKey.before (a b : ReadyKey) : Bool :=
  decide (a.seq < b.seq) || (a.seq == b.seq && decide (a.id < b.id))

def insertReady (key : ReadyKey) : List ReadyKey → List ReadyKey
  | [] => [key]
  | head :: rest => if key.before head then key :: head :: rest else head :: insertReady key rest

structure Schedule where
  pending : Array Nat
  ready : List ReadyKey

def connectedInputs (node : Node) : Nat := node.inputs.countP Option.isSome

def initialSchedule (g : Graph) : Schedule :=
  { pending := g.nodes.map fun
      | some node => connectedInputs node
      | none => 0
    ready := g.liveNodes.foldl (fun ready node =>
      if connectedInputs node = 0 then insertReady ⟨node.seq, node.id⟩ ready else ready) [] }

/-- Closes one edge into a node, which gets ready with its last one. -/
def closeEdge (g : Graph) (s : Schedule) (target : NodeId) : Schedule :=
  let left := s.pending.getD target 0 - 1
  let pending := s.pending.setIfInBounds target left
  match g.node? target with
  | some node =>
    if left = 0 then ⟨pending, insertReady ⟨node.seq, node.id⟩ s.ready⟩ else ⟨pending, s.ready⟩
  | none => ⟨pending, s.ready⟩

def drain (g : Graph) : Nat → Schedule → List NodeId
  | 0, _ => []
  | count + 1, s =>
    match s.ready with
    | [] => []
    | key :: rest =>
      match g.node? key.id with
      | none => []
      | some node =>
        key.id :: g.drain count (node.successors.foldl g.closeEdge { s with ready := rest })

def order (g : Graph) : List NodeId := g.drain g.nodes.size g.initialSchedule

end Graph

end LayerGraph
