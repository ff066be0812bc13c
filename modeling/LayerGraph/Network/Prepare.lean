import LayerGraph.Network.Load
import LayerGraph.Optimizer.AsReshape
import LayerGraph.Optimizer.Run

/-!
# Preparing a network

Optimizing a graph by the standard rules and loading the result.
-/

set_option autoImplicit false

namespace LayerGraph

/-- What preparing leaves: the optimized graph, the log, and the network with the report
or what stopped it. -/
structure Preparation where
  graph : Graph
  log : Log
  outcome : Except LoadError (Network × OptimizationReport)

def prepare (options : OptimizerOptions) (statistics : Bool) (backend : BackendId)
    (registry : Registry) (g : Graph) : Preparation :=
  let optimized := optimize Rule.standard options statistics g
  match optimized.outcome with
  | .error error => ⟨optimized.graph, optimized.log, .error (.graph error)⟩
  | .ok report =>
    let (loaded, log) := Network.load optimized.graph backend registry
    ⟨optimized.graph, optimized.log ++ log, loaded.map fun network => (network, report)⟩

end LayerGraph
