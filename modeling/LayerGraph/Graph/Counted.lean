import LayerGraph.Graph.Order

/-!
# Topological order with checked counters

The same walk in arithmetic that refuses to go below zero. Closing an edge into a node whose
counter is zero gives nothing, and then there is no order.
-/

set_option autoImplicit false

namespace LayerGraph

namespace Graph

/-- Closes an edge, unless that would lower a counter below zero. -/
def closeEdge? (g : Graph) (s : Schedule) (target : NodeId) : Option Schedule :=
  if s.pending.getD target 0 = 0 then none else some (g.closeEdge s target)

def drain? (g : Graph) : Nat → Schedule → Option (List NodeId)
  | 0, _ => some []
  | count + 1, s =>
    match s.ready with
    | [] => some []
    | key :: rest =>
      match g.node? key.id with
      | none => some []
      | some node => do
        let next ← node.successors.foldlM g.closeEdge? { s with ready := rest }
        let listed ← g.drain? count next
        return key.id :: listed

def order? (g : Graph) : Option (List NodeId) := g.drain? g.nodes.size g.initialSchedule

end Graph

end LayerGraph
