import LayerGraph.Backend.Reference
import Mathlib.Data.List.Basic

/-!
# What a registry holds

Looking a key up gives what was put under it last. The registry of the reference backend
holds one constructor for every kind and type on the backend's list, and nothing else.
-/

set_option autoImplicit false

namespace LayerGraph

section Put

variable {κ α : Type} [LT κ] [DecidableEq κ] [∀ a b : κ, Decidable (a < b)]

omit [LT κ] [∀ a b : κ, Decidable (a < b)] in
theorem lookup_cons_eq (k : κ) (entry : κ × α) (rest : List (κ × α)) :
    (entry :: rest).lookup k = if k = entry.1 then some entry.2 else rest.lookup k := by
  rw [List.lookup_cons]
  by_cases hk : k = entry.1
  · rw [if_pos hk, beq_iff_eq.2 hk]
  · rw [if_neg hk, beq_false_of_ne hk]

theorem lookup_putEntry (key k : κ) (value : α) (entries : List (κ × α)) :
    (putEntry key value entries).lookup k = if k = key then some value else entries.lookup k := by
  induction entries with
  | nil => rw [putEntry, lookup_cons_eq]
  | cons entry rest ih =>
    rw [putEntry]
    by_cases hlt : key < entry.1
    · rw [if_pos hlt, lookup_cons_eq]
    · rw [if_neg hlt]
      by_cases heq : key = entry.1
      · rw [if_pos heq, lookup_cons_eq, lookup_cons_eq, ← heq]
        by_cases hk : k = key <;> simp [hk]
      · rw [if_neg heq, lookup_cons_eq, lookup_cons_eq, ih]
        by_cases hk : k = key
        · simp [hk, heq]
        · simp [hk]

theorem Table.find?_put [KeyOrder κ] (t : Table κ α) (key k : κ) (value : α) :
    (t.put key value).find? k = if k = key then some value else t.find? k :=
  lookup_putEntry key k value t.entries

end Put

def Offer.key (backend : BackendId) (offer : Offer) : WorkloadKey :=
  ⟨offer.kind, backend, offer.dataType⟩

/-- The last offer under a key wins over those before it. -/
theorem find?_registerOffers (backend : BackendId) (offers : List Offer) (state : Registry × Log)
    (key : WorkloadKey) :
    (offers.foldl (Registry.registerOffer backend) state).1.find? key =
      ((offers.reverse.find? fun offer => offer.key backend = key).map (·.constructor)).or
        (state.1.find? key) := by
  induction offers generalizing state with
  | nil => simp
  | cons offer rest ih =>
    rw [List.foldl_cons, ih, List.reverse_cons, List.find?_append]
    have hput : (Registry.registerOffer backend state offer).1.find? key =
        if key = offer.key backend then some offer.constructor else state.1.find? key :=
      Table.find?_put _ _ _ _
    rw [hput]
    cases rest.reverse.find? fun offer => offer.key backend = key with
    | some last => simp
    | none => by_cases hk : key = offer.key backend <;> simp [hk, Ne.symm, eq_comm]

namespace Reference

variable {f : FloatAddition} {kind : OperationKind} {t : DataType} {c : WorkloadConstructor}

theorem mem_offers {offer : Offer} : offer ∈ offers f ↔
    offer.dataType ∈ types offer.kind ∧
      constructor? f offer.kind offer.dataType = some offer.constructor := by
  have hall : ∀ kind : OperationKind, kind ∈ OperationKind.all := by
    intro kind
    cases kind <;> decide
  simp only [offers, List.mem_flatMap, List.mem_filterMap, Option.map_eq_some_iff]
  constructor
  · rintro ⟨kind, -, t, ht, c, hc, rfl⟩
    exact ⟨ht, hc⟩
  · rintro ⟨ht, hc⟩
    exact ⟨_, hall _, _, ht, _, hc, rfl⟩

/-- Which constructor the reference registry has for a kind and a type. -/
theorem find?_registry : (referenceBackend f).registry.find? ⟨kind, referenceId, t⟩ = some c ↔
    t ∈ types kind ∧ constructor? f kind t = some c := by
  have hfill : (referenceBackend f).registry.find? ⟨kind, referenceId, t⟩ =
      ((offers f).reverse.find? fun offer =>
        offer.key referenceId = ⟨kind, referenceId, t⟩).map (·.constructor) := by
    refine (find?_registerOffers referenceId (offers f) (Table.empty, []) _).trans ?_
    simp [Table.find?, Table.empty]
  rw [hfill, Option.map_eq_some_iff]
  constructor
  · rintro ⟨offer, ho, rfl⟩
    have hkey : offer.key referenceId = ⟨kind, referenceId, t⟩ := by
      simpa using List.find?_some ho
    simp only [Offer.key, WorkloadKey.mk.injEq, true_and] at hkey
    obtain ⟨rfl, rfl⟩ := hkey
    exact mem_offers.1 (List.mem_reverse.1 (List.mem_of_find?_eq_some ho))
  · rintro ⟨ht, hc⟩
    have hmem : (⟨kind, t, c⟩ : Offer) ∈ (offers f).reverse :=
      List.mem_reverse.2 (mem_offers.2 ⟨ht, hc⟩)
    cases hfind : (offers f).reverse.find? fun offer =>
        offer.key referenceId = ⟨kind, referenceId, t⟩ with
    | none => exact absurd (decide_eq_true rfl) (List.find?_eq_none.1 hfind _ hmem)
    | some offer =>
      have hkey : offer.key referenceId = ⟨kind, referenceId, t⟩ := by
        simpa using List.find?_some hfind
      have hoffer := mem_offers.1 (List.mem_reverse.1 (List.mem_of_find?_eq_some hfind))
      simp only [Offer.key, WorkloadKey.mk.injEq, true_and] at hkey
      obtain ⟨rfl, rfl⟩ := hkey
      exact ⟨offer, rfl, Option.some.inj (hoffer.2.symm.trans hc)⟩

theorem constructor?_isSome (ht : t ∈ types kind) : ∃ c, constructor? f kind t = some c := by
  cases kind with
  | addition =>
    simp only [types, summedTypes, List.mem_cons, List.not_mem_nil, or_false] at ht
    rcases ht with rfl | rfl | rfl <;> exact ⟨_, rfl⟩
  | _ => exact ⟨_, rfl⟩

end Reference

end LayerGraph
