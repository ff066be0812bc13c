import LayerGraph.Workload.Basic
import LayerGraph.Table
import LayerGraph.Log

/-!
# Workload registries

A registry maps an operation kind, a backend and an element type to a constructor. The
key has to be met exactly: there is no fallback from one key to another.
-/

set_option autoImplicit false

namespace LayerGraph

structure WorkloadKey where
  kind : OperationKind
  backend : BackendId
  dataType : DataType
  deriving DecidableEq

namespace WorkloadKey

def Less (a b : WorkloadKey) : Prop :=
  a.kind.rank < b.kind.rank ∨ a.kind.rank = b.kind.rank ∧
    (a.backend < b.backend ∨ a.backend = b.backend ∧ a.dataType.rank < b.dataType.rank)

instance : LT WorkloadKey := ⟨Less⟩

instance (a b : WorkloadKey) : Decidable (a < b) :=
  inferInstanceAs (Decidable
    (a.kind.rank < b.kind.rank ∨ a.kind.rank = b.kind.rank ∧
      (a.backend < b.backend ∨ a.backend = b.backend ∧ a.dataType.rank < b.dataType.rank)))

theorem less_irrefl (a : WorkloadKey) : ¬ Less a a := by
  rintro (h | ⟨_, h | ⟨_, h⟩⟩)
  · exact Nat.lt_irrefl _ h
  · exact Std.lt_irrefl h
  · exact Nat.lt_irrefl _ h

theorem less_trans {a b c : WorkloadKey} (hab : Less a b) (hbc : Less b c) : Less a c := by
  rcases hab with hab | ⟨hk, hab⟩
  · rcases hbc with hbc | ⟨hk', _⟩
    · exact .inl (Nat.lt_trans hab hbc)
    · exact .inl (hk' ▸ hab)
  · rcases hbc with hbc | ⟨hk', hbc⟩
    · exact .inl (hk ▸ hbc)
    · refine .inr ⟨hk.trans hk', ?_⟩
      rcases hab with hab | ⟨hb, hab⟩
      · rcases hbc with hbc | ⟨hb', _⟩
        · exact .inl (Std.lt_trans hab hbc)
        · exact .inl (hb' ▸ hab)
      · rcases hbc with hbc | ⟨hb', hbc⟩
        · exact .inl (hb ▸ hbc)
        · exact .inr ⟨hb.trans hb', Nat.lt_trans hab hbc⟩

theorem less_of_not_less {a b : WorkloadKey} (h : ¬ Less a b) (hne : a ≠ b) : Less b a := by
  rcases Nat.lt_trichotomy a.kind.rank b.kind.rank with hk | hk | hk
  · exact absurd (.inl hk) h
  · refine .inr ⟨hk.symm, ?_⟩
    by_cases hb : a.backend = b.backend
    · refine .inr ⟨hb.symm, ?_⟩
      rcases Nat.lt_trichotomy a.dataType.rank b.dataType.rank with ht | ht | ht
      · exact absurd (.inr ⟨hk, .inr ⟨hb, ht⟩⟩) h
      · have hkind := OperationKind.rank_injective hk
        have htype := DataType.rank_injective ht
        cases a
        cases b
        simp_all
      · exact ht
    · have hlt : ¬ a.backend < b.backend := fun hlt => h (.inr ⟨hk, .inl hlt⟩)
      exact .inl (KeyOrder.connex hlt hb)
  · exact .inl hk

instance : KeyOrder WorkloadKey where
  irrefl := less_irrefl
  trans := less_trans
  connex := less_of_not_less

def debugText (k : WorkloadKey) : String :=
  "WorkloadKey \x7b kind: " ++ k.kind.name ++ ", backend: BackendId(" ++ quoted k.backend ++
    "), data_type: " ++ k.dataType.name ++ " \x7d"

end WorkloadKey

abbrev Registry := Table WorkloadKey WorkloadConstructor

namespace Registry

def register (r : Registry) (key : WorkloadKey) (constructor : WorkloadConstructor) : Registry :=
  r.put key constructor

def registerLog (r : Registry) (key : WorkloadKey) : Log :=
  if r.contains key then
    [{ level := .debug, message := "replaced workload constructor",
       fields := [("key", key.debugText)] }]
  else []

def supports (r : Registry) (kind : OperationKind) (backend : BackendId) (t : DataType) : Bool :=
  r.contains ⟨kind, backend, t⟩

/-- Builds the workload for a spec, of exactly the given type. -/
def create (r : Registry) (spec : WorkloadSpec) (backend : BackendId) (t : DataType) :
    Except WorkloadError Workload :=
  match r.find? ⟨spec.operation.kind, backend, t⟩ with
  | none => .error (.unsupportedCombination spec.operation.kind t backend)
  | some constructor =>
    match constructor spec with
    | .error error => .error error
    | .ok workload =>
      if workload.dataType = t then .ok workload
      else .error (.dataTypeMismatch workload.name t workload.dataType)

def debugText (r : Registry) : String :=
  "WorkloadRegistry \x7b keys: " ++ bracketed (r.keys.map WorkloadKey.debugText) ++ " \x7d"

end Registry

end LayerGraph
