import LayerGraph.Optimizer.Run
import LayerGraph.Json.Record
import LayerGraph.Tensor.Shape
import LayerGraph.Text.Blank

/-!
# Optimizer settings

The pass budget and the pass statistics have defaults that the environment may change.
Each is read once, when it is first needed, so an unreadable budget is reported once.
-/

set_option autoImplicit false

namespace LayerGraph

structure Environment where
  maxPasses : Option String
  passStats : Option String
  deriving DecidableEq

def standardMaxPasses : Nat := 16

/-- Number of passes written in a setting: digits, with a plus sign allowed, below the
limit of indexes. Zero counts as one. -/
def readPasses? (setting : String) : Option Nat :=
  let digits :=
    match trimBlanks setting.toList with
    | '+' :: rest => rest
    | chars => chars
  if digits.isEmpty then none
  else
    (digits.mapM Digit.ofChar?).bind fun ds =>
      let value := digitsValue ds
      if value < indexLimit then some (max value 1) else none

def readFlag (setting : String) : Bool :=
  let word := String.ofList ((trimBlanks setting.toList).map Char.toLower)
  word == "1" || word == "true" || word == "yes" || word == "on"

def ignoredEntry (setting : String) : LogEntry :=
  { level := .warn
    message := "ignoring unparsable INFERGRAPH_OPT_MAX_PASSES, using " ++
      toString standardMaxPasses
    fields := [("value", setting)] }

namespace Environment

def unset : Environment := ⟨none, none⟩

/-- The default budget, and what reading it for the first time logs. -/
def defaultMaxPasses (e : Environment) : Nat × Log :=
  match e.maxPasses with
  | none => (standardMaxPasses, [])
  | some setting =>
    if (trimBlanks setting.toList).isEmpty then (standardMaxPasses, [])
    else
      match readPasses? setting with
      | some passes => (passes, [])
      | none => (standardMaxPasses, [ignoredEntry setting])

def statistics (e : Environment) : Bool := e.passStats.any readFlag

end Environment

/-- An environment and whether its budget has been read. -/
structure Defaults where
  environment : Environment
  budgetRead : Bool
  deriving DecidableEq

namespace Defaults

def ofEnvironment (e : Environment) : Defaults := ⟨e, false⟩

def options (d : Defaults) : OptimizerOptions × Log × Defaults :=
  let (passes, log) := d.environment.defaultMaxPasses
  (⟨passes, false⟩, if d.budgetRead then [] else log, { d with budgetRead := true })

end Defaults

namespace OptimizerOptions

def toJson (o : OptimizerOptions) : Json :=
  .record [("max_passes", .nat o.maxPasses), ("validate_each_rewrite", .bool o.validateEach)]

def maxPassesOfJson? (default : Nat) : Option Json → Option Nat
  | none => some default
  | some j => j.asNat?.filter fun n => decide (n < indexLimit)

def validateEachOfJson? (default : Bool) : Option Json → Option Bool
  | none => some default
  | some j => j.asBool?

/-- Reads options, missing fields from the defaults. -/
def ofJson? (default : OptimizerOptions) (j : Json) : Option OptimizerOptions :=
  match j.record? ["max_passes", "validate_each_rewrite"] with
  | some [passes, validateEach] => do
    let passes ← maxPassesOfJson? default.maxPasses passes
    let validateEach ← validateEachOfJson? default.validateEach validateEach
    return ⟨passes, validateEach⟩
  | _ => none

end OptimizerOptions

/-- Whether reading options looks up the defaults: an array does so before its items, an
object once its fields have been understood. -/
def Defaults.consulted (j : Json) (read : Option OptimizerOptions) : Bool :=
  match j with
  | .array _ => true
  | _ => read.isSome

def Defaults.readOptions (d : Defaults) (j : Json) :
    Option OptimizerOptions × Log × Defaults :=
  let (default, log, next) := d.options
  let read := OptimizerOptions.ofJson? default j
  if Defaults.consulted j read then (read, log, next) else (read, [], d)

end LayerGraph
