import LayerGraph.Graph.Reachable
import LayerGraph.Graph.ReadyOrder
import LayerGraph.Optimizer.Probe
import LayerGraph.Optimizer.Settings
import LayerGraph.Workload.Probe
import LayerGraph.Network.Definition
import LayerGraph.Network.Execute
import LayerGraph.Network.Meaning
import LayerGraph.Network.Prepare
import LayerGraph.Proofs.Paths
import LayerGraph.Proofs.Edits
import LayerGraph.Proofs.Linkage
import LayerGraph.Proofs.Soundness
import LayerGraph.Proofs.Representation
import LayerGraph.Proofs.CycleCheck
import LayerGraph.Proofs.Atomicity
import LayerGraph.Proofs.ReadyOrder
import LayerGraph.Proofs.Checks
import LayerGraph.Proofs.Schedule
import LayerGraph.Proofs.Reordering
import LayerGraph.Proofs.Registration
import LayerGraph.Proofs.Workloads
import LayerGraph.Proofs.Typing
import LayerGraph.Proofs.Boundary
import LayerGraph.Proofs.Valuation
import LayerGraph.Proofs.Loading
import LayerGraph.Proofs.Supply
import LayerGraph.Proofs.Execution
import LayerGraph.Proofs.Gathering
import LayerGraph.Proofs.Substitution
import LayerGraph.Proofs.Rewriting
import LayerGraph.Proofs.Rules
import LayerGraph.Proofs.Runs
import LayerGraph.Proofs.Optimizing
import LayerGraph.Proofs.Shortening
import LayerGraph.Proofs.Termination
import LayerGraph.Proofs.Convergence
import LayerGraph.Proofs.Simplified
import LayerGraph.Proofs.Support
import LayerGraph.Proofs.SingleAssignment
import LayerGraph.Proofs.Building
import LayerGraph.Proofs.Acceptance
import LayerGraph.Proofs.Renumbering
import LayerGraph.Proofs.LayerOrder
import LayerGraph.Proofs.Refusal
import LayerGraph.Proofs.Containment
import LayerGraph.Proofs.Accounting
import LayerGraph.Proofs.History
import LayerGraph.Proofs.Magnitudes
import LayerGraph.Proofs.Parsing
import LayerGraph.Proofs.RoundTrip
import LayerGraph.Proofs.LayoutCriterion
import LayerGraph.Proofs.Conventions
import LayerGraph.Proofs.Locality
import LayerGraph.Proofs.Passes
import LayerGraph.Network.Draft
import LayerGraph.Proofs.Dispatch
import LayerGraph.Proofs.Drafts
import LayerGraph.Proofs.IndexRange
import LayerGraph.Proofs.Inverses
import LayerGraph.Proofs.ShapeCriterion
