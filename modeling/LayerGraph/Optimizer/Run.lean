import LayerGraph.Optimizer.Rule
import LayerGraph.Graph.Validity

/-!
# Optimizing a graph

A pass offers every node to every rule, rule after rule, each in the topological order
found when its turn comes; a node that an earlier application removed is passed over.
Passes are repeated until no rule applies or the budget of passes is spent.
-/

set_option autoImplicit false

namespace LayerGraph

structure OptimizerOptions where
  maxPasses : Nat
  validateEach : Bool
  deriving DecidableEq

structure PassReport where
  index : Nat
  applied : List Applied
  stillMatching : Bool
  deriving DecidableEq

structure OptimizationReport where
  passes : List PassReport
  converged : Bool
  deriving DecidableEq

namespace OptimizationReport

def applied (r : OptimizationReport) : List Applied := r.passes.flatMap (·.applied)

end OptimizationReport

/-- State of a run: the graph, what the current pass has applied, and the log. -/
structure Progress where
  graph : Graph
  applied : List Applied
  log : Log

abbrev Optimizing := EStateM GraphError Progress

namespace Optimizing

def edit {α : Type} (e : Edit α) : Optimizing α := fun p =>
  match e p.graph with
  | .ok value g => .ok value { p with graph := g }
  | .error error g => .error error { p with graph := g }

def record (entry : LogEntry) : Optimizing Unit :=
  modify fun p => { p with log := p.log ++ [entry] }

def offer (validateEach : Bool) (rule : Rule) (id : NodeId) : Optimizing Unit := do
  if rule.applies (← get).graph id then
    let applied ← edit (rule.apply id)
    record applied.logEntry
    if validateEach then edit (Edit.check Graph.validate)
    modify fun p => { p with applied := p.applied ++ [applied] }

def sweep (validateEach : Bool) (rule : Rule) : Optimizing Unit := do
  (← get).graph.order.forM (offer validateEach rule)

def pass (validateEach : Bool) (rules : List Rule) (index : Nat) : Optimizing PassReport := do
  modify fun p => { p with applied := [] }
  rules.forM (sweep validateEach)
  let p ← get
  return ⟨index, p.applied, Rule.anyApplies rules p.graph⟩

def passEntry (report : PassReport) (nodes : Nat) : LogEntry :=
  { level := .info
    message := "optimizer pass finished"
    fields := [("pass", toString report.index), ("rewrites", toString report.applied.length),
      ("nodes", toString nodes), ("still_matching", boolText report.stillMatching)] }

/-- Passes numbered from `index`, at most `budget` of them, up to the first after which
no rule applies. -/
def passes (validateEach statistics : Bool) (rules : List Rule) :
    Nat → Nat → Optimizing (List PassReport)
  | 0, _ => return []
  | budget + 1, index => do
    let report ← pass validateEach rules index
    if statistics then record (passEntry report (← get).graph.live)
    if report.stillMatching then
      let rest ← passes validateEach statistics rules budget (index + 1)
      return report :: rest
    else return [report]

def exhaustedEntry (budget : Nat) (rules : List Rule) : LogEntry :=
  { level := .warn
    message := "optimizer pass budget exhausted before reaching a fixed point"
    fields := [("max_passes", toString budget),
      ("rules", bracketed (rules.map fun rule => quoted rule.name))] }

def finishedEntry (report : OptimizationReport) : LogEntry :=
  { level := .info
    message := "graph optimization finished"
    fields := [("passes", toString report.passes.length),
      ("rewrites", toString report.applied.length), ("converged", boolText report.converged)] }

/-- A run of the optimizer. A graph that is not valid is refused as it stands, and with
no rules there is nothing to do. -/
def run (rules : List Rule) (options : OptimizerOptions) (statistics : Bool) :
    Optimizing OptimizationReport := do
  edit (Edit.check Graph.validate)
  if rules.isEmpty then return ⟨[], true⟩
  let budget := max options.maxPasses 1
  let reports ← passes options.validateEach statistics rules budget 0
  let report : OptimizationReport :=
    ⟨reports, reports.getLast?.any fun last => !last.stillMatching⟩
  if !report.converged then record (exhaustedEntry budget rules)
  record (finishedEntry report)
  return report

end Optimizing

/-- Result of optimizing: the graph reached, the log, and the report or what stopped it. -/
structure Optimization where
  graph : Graph
  log : Log
  outcome : Except GraphError OptimizationReport

def optimize (rules : List Rule) (options : OptimizerOptions) (statistics : Bool) (g : Graph) :
    Optimization :=
  match Optimizing.run rules options statistics ⟨g, [], []⟩ with
  | .ok report p => ⟨p.graph, p.log, .ok report⟩
  | .error error p => ⟨p.graph, p.log, .error error⟩

end LayerGraph
