import LayerGraph.Graph.Edit
import LayerGraph.Graph.Order
import LayerGraph.Log
import LayerGraph.Text.Quoted

/-!
# Rules

A rule recognises a node and edits the graph around it. It tells which nodes it removed
and which node, if any, stands for them now.
-/

set_option autoImplicit false

namespace LayerGraph

structure Applied where
  rule : String
  replaced : List NodeLabel
  replacement : Option NodeId
  deriving DecidableEq

/-- A local simplification. `admits` looks at the operation alone, `fits` at the graph
around the node. -/
structure Rule where
  name : String
  admits : Operation → Bool
  fits : Graph → NodeId → Bool
  apply : NodeId → Edit Applied

namespace Rule

def applies (rule : Rule) (g : Graph) (id : NodeId) : Bool :=
  (g.node? id).any (fun node => rule.admits node.operation) && rule.fits g id

def anyApplies (rules : List Rule) (g : Graph) : Bool :=
  rules.any fun rule => g.order.any (rule.applies g)

end Rule

def NodeLabel.debugText (n : NodeLabel) : String :=
  "RelatedNode \x7b id: NodeId(" ++ toString n.id ++ "), name: " ++ quoted n.name ++ " \x7d"

def nodeIdDebugText : Option NodeId → String
  | some id => "Some(NodeId(" ++ toString id ++ "))"
  | none => "None"

def Applied.logEntry (a : Applied) : LogEntry :=
  { level := .debug
    message := "applied rewrite"
    fields := [("rule", a.rule), ("replaced", bracketed (a.replaced.map NodeLabel.debugText)),
      ("replacement", nodeIdDebugText a.replacement)] }

namespace Operation

def isInput (op : Operation) : Bool := op.kind == .input
def isPermute (op : Operation) : Bool := op.kind == .permute
def isTranspose (op : Operation) : Bool := op.kind == .transpose
def isReshape (op : Operation) : Bool := op.kind == .reshape
def isAddition (op : Operation) : Bool := op.kind == .addition

end Operation

def Graph.parent? (g : Graph) (id : NodeId) : Option Node :=
  (g.node? id).bind fun node => (node.input? 0).bind fun producer => g.node? producer.node

def Edit.parent (id : NodeId) : Edit NodeId := do
  let producer ← check fun g => g.requireProducer ⟨id, 0⟩
  return producer.node

end LayerGraph
