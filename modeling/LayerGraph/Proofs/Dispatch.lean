import LayerGraph.Proofs.Registration
import Mathlib.Data.List.Induction

/-!
# Which constructor a request reaches

A registry is filled by registrations one after another. A request names a kind, a backend and
an element type; it reaches the constructor of the last registration under exactly these, and
what that constructor gives is what the request gives, unless it is of another type.
-/

set_option autoImplicit false

namespace LayerGraph

namespace Table

variable {κ α : Type} [LT κ] [DecidableEq κ]

theorem mem_keys_iff {t : Table κ α} {key : κ} : key ∈ t.keys ↔ t.contains key = true := by
  rw [contains, find?, keys]
  generalize t.entries = entries
  induction entries with
  | nil => simp
  | cons entry rest ih =>
    rw [List.map_cons, List.mem_cons, ih, lookup_cons_eq]
    by_cases hkey : key = entry.1
    · simp [hkey]
    · simp [hkey]

omit [DecidableEq κ] in
theorem keys_ascending (t : Table κ α) : t.keys.Pairwise (· < ·) :=
  List.pairwise_map.2 t.ordered

/-- Ascending keys are distinct. -/
theorem count_keys [KeyOrder κ] (t : Table κ α) (key : κ) :
    t.keys.count key = if t.contains key then 1 else 0 := by
  have hnodup : t.keys.Nodup := by
    refine List.nodup_iff_pairwise_ne.2 (t.keys_ascending.imp ?_)
    rintro a b hlt rfl
    exact KeyOrder.irrefl a hlt
  rw [hnodup.count]
  simp only [mem_keys_iff]

end Table

namespace Registry

variable {r : Registry} {spec : WorkloadSpec} {backend : BackendId} {t : DataType}

theorem create_eq_ok_iff {w : Workload} : r.create spec backend t = .ok w ↔
    ∃ c, r.find? ⟨spec.operation.kind, backend, t⟩ = some c ∧ c spec = .ok w ∧
      w.dataType = t := by
  rw [create]
  cases r.find? ⟨spec.operation.kind, backend, t⟩ with
  | none => simp
  | some c =>
    cases hc : c spec with
    | error e => simp [hc]
    | ok built =>
      by_cases ht : built.dataType = t
      · simp only [if_pos ht, Option.some.injEq, exists_eq_left', hc, Except.ok.injEq]
        exact ⟨fun h => ⟨h, h ▸ ht⟩, And.left⟩
      · simp only [if_neg ht, Option.some.injEq, exists_eq_left', hc, Except.ok.injEq, reduceCtorEq,
          false_iff]
        rintro ⟨rfl, hw⟩
        exact ht hw

theorem create_eq_error_iff {e : WorkloadError} : r.create spec backend t = .error e ↔
    (r.find? ⟨spec.operation.kind, backend, t⟩ = none ∧
        e = .unsupportedCombination spec.operation.kind t backend) ∨
      ∃ c, r.find? ⟨spec.operation.kind, backend, t⟩ = some c ∧ (c spec = .error e ∨
        ∃ w, c spec = .ok w ∧ w.dataType ≠ t ∧ e = .dataTypeMismatch w.name t w.dataType) := by
  rw [create]
  cases r.find? ⟨spec.operation.kind, backend, t⟩ with
  | none => simp [eq_comm]
  | some c =>
    cases hc : c spec with
    | error e => simp [hc]
    | ok built =>
      by_cases ht : built.dataType = t
      · simp [hc, ht]
      · simpa [hc, ht] using eq_comm

end Registry

abbrev Registrations := List (WorkloadKey × WorkloadConstructor)

namespace Registrations

variable {calls : Registrations} {call : WorkloadKey × WorkloadConstructor} {key : WorkloadKey}
  {c : WorkloadConstructor} {spec : WorkloadSpec} {backend : BackendId} {t : DataType}

def registry (calls : Registrations) : Registry :=
  calls.foldl (fun r call => r.register call.1 call.2) Table.empty

def Takes (calls : Registrations) (key : WorkloadKey) : Prop := key ∈ calls.map (·.1)

instance : Decidable (calls.Takes key) := inferInstanceAs (Decidable (key ∈ calls.map (·.1)))

/-- A registration puts this constructor under this key, and none after it is under the key. -/
def Latest (calls : Registrations) (key : WorkloadKey) (c : WorkloadConstructor) : Prop :=
  ∃ before after, calls = before ++ (key, c) :: after ∧ ∀ call ∈ after, call.1 ≠ key

theorem latest_append_singleton : Latest (calls ++ [call]) key c ↔
    if key = call.1 then c = call.2 else calls.Latest key c := by
  constructor
  · rintro ⟨before, after, heq, hafter⟩
    rcases after.eq_nil_or_concat with rfl | ⟨rest, last, rfl⟩
    · obtain ⟨rfl, hcall⟩ := List.append_inj' heq rfl
      obtain rfl := List.singleton_inj.1 hcall
      simp
    · have hsplit : calls ++ [call] = (before ++ (key, c) :: rest) ++ [last] := by simp [heq]
      obtain ⟨hcalls, hcall⟩ := List.append_inj' hsplit rfl
      obtain rfl := List.singleton_inj.1 hcall
      have hother : key ≠ call.1 := Ne.symm (hafter call (by simp))
      rw [if_neg hother]
      exact ⟨before, rest, hcalls, fun other h => hafter other (by simp [h])⟩
  · intro h
    by_cases hkey : key = call.1
    · rw [if_pos hkey] at h
      exact ⟨calls, [], by rw [hkey, h], by simp⟩
    · rw [if_neg hkey] at h
      obtain ⟨before, after, rfl, hafter⟩ := h
      refine ⟨before, after ++ [call], by simp, fun other hother => ?_⟩
      rcases List.mem_append.1 hother with hother | hother
      · exact hafter other hother
      · rw [List.mem_singleton.1 hother]
        exact Ne.symm hkey

theorem find?_registry_append : (registry (calls ++ [call])).find? key =
    if key = call.1 then some call.2 else calls.registry.find? key := by
  rw [registry, List.foldl_append]
  exact Table.find?_put _ _ _ _

/-- A registry holds, under a key, what was registered under it last. -/
theorem find?_registry_eq_some_iff : calls.registry.find? key = some c ↔ calls.Latest key c := by
  induction calls using List.reverseRecOn with
  | nil => simp [registry, Table.find?, Table.empty, Latest]
  | append_singleton calls call ih =>
    rw [find?_registry_append, latest_append_singleton]
    by_cases hkey : key = call.1
    · simp [hkey, eq_comm]
    · simp [hkey, ih]

theorem find?_registry_eq_none_iff : calls.registry.find? key = none ↔ ¬ calls.Takes key := by
  induction calls using List.reverseRecOn with
  | nil => simp [registry, Table.find?, Table.empty, Takes]
  | append_singleton calls call ih =>
    rw [find?_registry_append]
    by_cases hkey : key = call.1
    · simp [hkey, Takes]
    · simpa [hkey, Takes] using ih

theorem contains_registry_iff : calls.registry.contains key = true ↔ calls.Takes key := by
  rw [Table.contains, Option.isSome_iff_ne_none, ne_eq, find?_registry_eq_none_iff, not_not]

/-- Under a key that is taken one constructor is the latest, and only one. -/
theorem takes_iff : calls.Takes key ↔ ∃! c, calls.Latest key c := by
  simp only [← find?_registry_eq_some_iff]
  rw [← contains_registry_iff, Table.contains, Option.isSome_iff_exists]
  constructor
  · rintro ⟨c, hc⟩
    exact ⟨c, hc, fun other hother => Option.some.inj (hother.symm.trans hc)⟩
  · rintro ⟨c, hc, -⟩
    exact ⟨c, hc⟩

/-- Why a request fails: nothing is registered under its key, or what the latest constructor
makes of it is an error or of another type. -/
theorem registry_create_eq_error_iff {e : WorkloadError} :
    calls.registry.create spec backend t = .error e ↔
      (¬ calls.Takes ⟨spec.operation.kind, backend, t⟩ ∧
          e = .unsupportedCombination spec.operation.kind t backend) ∨
        ∃ c, calls.Latest ⟨spec.operation.kind, backend, t⟩ c ∧ (c spec = .error e ∨
          ∃ w, c spec = .ok w ∧ w.dataType ≠ t ∧
            e = .dataTypeMismatch w.name t w.dataType) := by
  simp only [Registry.create_eq_error_iff, find?_registry_eq_some_iff, find?_registry_eq_none_iff]

/-- What a registry does that holds these registrations and nothing else. A constructor may
fail with any error at all; the two that the registry reports itself are told apart where the
constructor does not use them. -/
structure ServedBy (calls : Registrations) (r : Registry) : Prop where
  latest : ∀ key, calls.Takes key ↔ ∃! c, calls.Latest key c
  created : ∀ spec backend t w, r.create spec backend t = .ok w ↔
    ∃ c, calls.Latest ⟨spec.operation.kind, backend, t⟩ c ∧ c spec = .ok w ∧ w.dataType = t
  failed : ∀ spec backend t e, r.create spec backend t = .error e ↔
    (¬ calls.Takes ⟨spec.operation.kind, backend, t⟩ ∧
        e = .unsupportedCombination spec.operation.kind t backend) ∨
      ∃ c, calls.Latest ⟨spec.operation.kind, backend, t⟩ c ∧ (c spec = .error e ∨
        ∃ w, c spec = .ok w ∧ w.dataType ≠ t ∧ e = .dataTypeMismatch w.name t w.dataType)
  unsupported : ∀ spec backend t,
    (∀ c, calls.Latest ⟨spec.operation.kind, backend, t⟩ c →
      ∀ kind t' b, c spec ≠ .error (.unsupportedCombination kind t' b)) →
    ((∃ kind t' b, r.create spec backend t = .error (.unsupportedCombination kind t' b)) ↔
      ¬ calls.Takes ⟨spec.operation.kind, backend, t⟩)
  mistyped : ∀ spec backend t,
    (∀ c, calls.Latest ⟨spec.operation.kind, backend, t⟩ c →
      ∀ name t' t'', c spec ≠ .error (.dataTypeMismatch name t' t'')) →
    ((∃ name t' t'', r.create spec backend t = .error (.dataTypeMismatch name t' t'')) ↔
      ∃ c w, calls.Latest ⟨spec.operation.kind, backend, t⟩ c ∧ c spec = .ok w ∧ w.dataType ≠ t)
  supported : ∀ kind backend t,
    r.supports kind backend t = true ↔ calls.Takes ⟨kind, backend, t⟩
  listed : ∀ key, r.keys.count key = if calls.Takes key then 1 else 0
  ascending : r.keys.Pairwise (· < ·)
  counted : r.keys.length = r.size

/-- A registry filled by any registrations serves exactly these: a request gets what the latest
constructor under its kind, backend and type makes of it, and never what another one makes. -/
theorem dispatch_exact (calls : Registrations) : calls.ServedBy calls.registry where
  latest _ := takes_iff
  created spec backend t w := by
    simp only [Registry.create_eq_ok_iff, find?_registry_eq_some_iff]
  failed _ _ _ _ := registry_create_eq_error_iff
  unsupported spec backend t hown := by
    constructor
    · rintro ⟨kind, t', b, herror⟩
      rcases registry_create_eq_error_iff.1 herror with
        ⟨hnone, -⟩ | ⟨c, hc, hfail | ⟨w, -, -, hmismatch⟩⟩
      · exact hnone
      · exact absurd hfail (hown c hc kind t' b)
      · cases hmismatch
    · intro hnone
      exact ⟨_, _, _, registry_create_eq_error_iff.2 (.inl ⟨hnone, rfl⟩)⟩
  mistyped spec backend t hown := by
    constructor
    · rintro ⟨name, t', t'', herror⟩
      rcases registry_create_eq_error_iff.1 herror with
        ⟨-, hunsupported⟩ | ⟨c, hc, hfail | ⟨w, hw, ht, -⟩⟩
      · cases hunsupported
      · exact absurd hfail (hown c hc name t' t'')
      · exact ⟨c, w, hc, hw, ht⟩
    · rintro ⟨c, w, hc, hw, ht⟩
      exact ⟨_, _, _, registry_create_eq_error_iff.2 (.inr ⟨c, hc, .inr ⟨w, hw, ht, rfl⟩⟩)⟩
  supported _ _ _ := contains_registry_iff
  listed key := by
    rw [Table.count_keys]
    simp only [contains_registry_iff]
  ascending := Table.keys_ascending _
  counted := List.length_map _

end Registrations

end LayerGraph
