import LayerGraph.Graph.Basic

/-!
# Ready orders

The order of a graph without the means to compute it: at each step the node inserted
earliest among those whose producers have all been listed, until no node is ready.
-/

set_option autoImplicit false

namespace LayerGraph

namespace Graph

def producers (g : Graph) (id : NodeId) : List NodeId :=
  match g.node? id with
  | some node => node.inputs.filterMap fun producer => producer.map (·.node)
  | none => []

/-- A live node that is not listed yet, and all of whose producers are. -/
def IsReady (g : Graph) (listed : List NodeId) (id : NodeId) : Prop :=
  g.contains id = true ∧ id ∉ listed ∧ ∀ producer ∈ g.producers id, producer ∈ listed

def seq? (g : Graph) (id : NodeId) : Option Nat := (g.node? id).map (·.seq)

/-- A ready node that was inserted no later than any other ready node. -/
def IsFirstReady (g : Graph) (listed : List NodeId) (id : NodeId) : Prop :=
  g.IsReady listed id ∧ ∀ other, g.IsReady listed other →
    ∀ s, g.seq? id = some s → ∀ t, g.seq? other = some t → s ≤ t

inductive ReadyOrder (g : Graph) : List NodeId → List NodeId → Prop where
  | done {listed : List NodeId} (h : ∀ id, ¬ g.IsReady listed id) : ReadyOrder g listed []
  | next {listed rest : List NodeId} {id : NodeId} (h : g.IsFirstReady listed id)
      (tail : ReadyOrder g (listed ++ [id]) rest) : ReadyOrder g listed (id :: rest)

end Graph

end LayerGraph
