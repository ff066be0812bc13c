import LayerGraph.Workload.Basic

/-!
# Probing workloads

Workloads that compute nothing, to see how a network goes when a workload fails, or
when it declares tensors that do not exist.
-/

set_option autoImplicit false

namespace LayerGraph

inductive ProbeKind where
  | noop
  | fail
  /-- Declares inputs that are outputs of the caller. -/
  | badInput
  /-- Declares inputs in a buffer that is not there. -/
  | farInput
  /-- Declares outputs that are inputs of the caller. -/
  | badOutput
  deriving DecidableEq, Repr

namespace Probe

def reject : WorkloadConstructor := fun spec =>
  .error (.invalidDescriptor spec.name "always rejects")

def moveSlots (slot : SlotRef) (bindings : List TensorBinding) : List TensorBinding :=
  bindings.map fun binding => { binding with slot := slot }

def declared (kind : ProbeKind) (spec : WorkloadSpec) : WorkloadSpec :=
  match kind with
  | .badInput => { spec with inputs := moveSlots (.boundOutput 0) spec.inputs }
  | .farInput => { spec with inputs := moveSlots (.intermediate 99) spec.inputs }
  | .badOutput => { spec with outputs := moveSlots (.boundInput 0) spec.outputs }
  | _ => spec

def outcome (kind : ProbeKind) (name : String) : Except WorkloadError Unit :=
  match kind with
  | .fail => .error (.execution name "always fails")
  | _ => .ok ()

def constructor (kind : ProbeKind) (t : DataType) : WorkloadConstructor := fun spec =>
  .ok
    { name := "Noop" ++ t.name
      description := "noop " ++ spec.operation.kind.label
      dataType := t
      spec := declared kind spec
      run := fun _ outputs => ⟨outputs, outcome kind ("Noop" ++ t.name)⟩
      extents_run := fun _ _ => rfl }

end Probe

end LayerGraph
