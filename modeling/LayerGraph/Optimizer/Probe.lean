import LayerGraph.Optimizer.Rule

/-!
# Probing rules

Rules that do little or harm, to see how a run of the optimizer goes when a rule never
stops matching, fails, or leaves an invalid graph.
-/

set_option autoImplicit false

namespace LayerGraph

namespace Rule

def alwaysMatches : Rule where
  name := "AlwaysMatches"
  admits := Operation.isInput
  fits _ _ := true
  apply _ := return ⟨"AlwaysMatches", [], none⟩

def namedNode (name : String) : Rule where
  name := "NamedNode"
  admits _ := true
  fits g id := (g.node? id).any fun node => node.name == name
  apply _ := return ⟨"NamedNode", [], none⟩

/-- Removes transposes as if they did nothing. -/
def dropTransposes : Rule where
  name := "DropTransposes"
  admits := Operation.isTranspose
  fits _ _ := true
  apply id := do
    let source ← Edit.check fun g => g.requireProducer ⟨id, 0⟩
    Edit.moveAll ⟨id, 0⟩ source
    let node ← Edit.check fun g => g.requireNode id
    let _ ← Edit.remove id
    return ⟨"DropTransposes", [node.label], none⟩

def unplug : Rule where
  name := "Unplug"
  admits := Operation.isReshape
  fits g id := (g.node? id).any fun node => (node.input? 0).isSome
  apply id := do
    let _ ← Edit.disconnect ⟨id, 0⟩
    return ⟨"Unplug", [], none⟩

def failOnAddition : Rule where
  name := "FailOnAddition"
  admits := Operation.isAddition
  fits _ _ := true
  apply _ := throw .cycle

end Rule

end LayerGraph
