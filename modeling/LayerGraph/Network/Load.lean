import LayerGraph.Network.Plan
import LayerGraph.Workload.Registry

/-!
# Loading

A network is a graph bound to one backend: a workload for every node in topological
order and memory for every buffer. Loading fails at the first node that has no workload.
-/

set_option autoImplicit false

namespace LayerGraph

inductive LoadError where
  | graph (error : GraphError)
  | workload (node : String) (cause : WorkloadError)
  deriving DecidableEq

def LoadError.message : LoadError → String
  | .graph error => error.message
  | .workload node _ => "cannot create workload for node '" ++ node ++ "'"

structure Network where
  backend : BackendId
  bindings : BindingTable
  workloads : List Workload
  buffers : List Memory

namespace Network

def createAll (registry : Registry) (backend : BackendId) :
    List PlanStep → List Workload × Option LoadError
  | [] => ([], none)
  | step :: rest =>
    match registry.create step.spec backend step.dataType with
    | .error cause => ([], some (.workload step.spec.name cause))
    | .ok workload =>
      let (workloads, failure) := createAll registry backend rest
      (workload :: workloads, failure)

def createdEntry (step : PlanStep) (workload : Workload) : LogEntry :=
  { level := .debug
    message := "created workload"
    fields := [("node", step.spec.name), ("workload", workload.name)] }

def loadedEntry (n : Network) : LogEntry :=
  { level := .info
    message := "loaded network"
    fields := [("backend", n.backend), ("workloads", toString n.workloads.length),
      ("inputs", toString n.bindings.inputs.length),
      ("outputs", toString n.bindings.outputs.length)] }

def zeroedBuffer (buffer : PlanBuffer) : Memory :=
  .zeroed buffer.descriptor.dataType.storage buffer.descriptor.numElements

def load (g : Graph) (backend : BackendId) (registry : Registry) :
    Except LoadError Network × Log :=
  match g.plan with
  | .error error => (.error (.graph error), [])
  | .ok plan =>
    let (workloads, failure) := createAll registry backend plan.steps
    let created := plan.steps.zipWith createdEntry workloads
    match failure with
    | some error => (.error error, created)
    | none =>
      let network : Network :=
        { backend, bindings := plan.bindings, workloads
          buffers := plan.buffers.map zeroedBuffer }
      (.ok network, created ++ [network.loadedEntry])

def workloadNames (n : Network) : List String := n.workloads.map (·.name)

end Network

end LayerGraph
