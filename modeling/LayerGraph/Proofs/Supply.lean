import LayerGraph.Network.Execute
import LayerGraph.Proofs.Valuation

/-!
# Tensors that the caller supplies

Once the bindings are accepted, the places pair the bindings of a side with the tensors
supplied for it, one to one, and every tensor fits the binding it is paired with. What an
input receives depends on its name alone.
-/

set_option autoImplicit false

namespace LayerGraph

def NamedTensor.Fits (s : NamedTensor) (b : Binding) : Prop :=
  b.descriptor.dataType = s.tensor.descriptor.dataType ∧
    b.descriptor.numElements = s.tensor.descriptor.numElements

namespace BindingTable

variable {table : BindingTable} {d : Direction} {supplied : List NamedTensor} {s : NamedTensor}
  {j p : Nat}

theorem fits_of_resolve (h : table.resolve d s = .ok j) :
    ∃ b, (table.side d)[j]? = some b ∧ b.name = s.name ∧ s.Fits b := by
  unfold resolve at h
  split at h
  · rename_i index binding hindex hfind
    simp only [ite_error_eq_ok_iff, Except.ok.injEq, ne_eq, not_not] at h
    obtain ⟨htype, hcount, rfl⟩ := h
    have hname : binding.name = s.name := by simpa using List.find?_some hfind
    rw [find?, List.find?_eq_bind_findIdx?_getElem?] at hfind
    rw [indexOf?] at hindex
    rw [hindex, Option.bind_some] at hfind
    exact ⟨binding, hfind, hname, htype, hcount⟩
  · cases h

theorem resolve_eq_ok (h : table.resolve d s = .ok j) :
    ∃ b, (table.side d)[j]? = some b ∧ b.name = s.name ∧
      s.tensor.memory.extent = b.descriptor.extent := by
  obtain ⟨b, hb, hname, htype, hcount⟩ := fits_of_resolve h
  refine ⟨b, hb, hname, ?_⟩
  rw [s.tensor.extent_eq, Descriptor.extent, htype, hcount]

theorem bindOne_eq_ok {places next : List (Option Nat)}
    (h : table.bindOne d places (s, p) = .ok next) :
    ∃ j, table.resolve d s = .ok j ∧ (∀ q, places[j]? ≠ some (some q)) ∧
      next = places.set j (some p) := by
  obtain ⟨j, hj, h⟩ := except_bind_eq_ok_iff.1 h
  by_cases hp : (places[j]?).join.isSome = true
  · simp [hp, bind, Except.bind, throw, throwThe, MonadExceptOf.throw] at h
  · simp only [hp, Bool.false_eq_true, if_false] at h
    cases h
    refine ⟨j, hj, fun q hq => hp ?_, rfl⟩
    simp [hq]

/-- After some tensors are placed, the places taken before are kept and each tensor has
the place it resolves to. -/
theorem foldlM_bindOne {pairs : List (NamedTensor × Nat)} {places result : List (Option Nat)}
    (hlen : places.length = (table.side d).length)
    (h : pairs.foldlM (table.bindOne d) places = .ok result) :
    result.length = (table.side d).length ∧
      (∀ j p, result[j]? = some (some p) ↔ places[j]? = some (some p) ∨
        ∃ s, (s, p) ∈ pairs ∧ table.resolve d s = .ok j) ∧
      ∀ s p, (s, p) ∈ pairs → ∃ j, table.resolve d s = .ok j := by
  induction pairs generalizing places with
  | nil =>
    cases h
    simp [hlen]
  | cons pair rest ih =>
    obtain ⟨s₀, p₀⟩ := pair
    rw [List.foldlM_cons, except_bind_eq_ok_iff] at h
    obtain ⟨next, hnext, hrest⟩ := h
    obtain ⟨j₀, hj₀, hfree, rfl⟩ := bindOne_eq_ok hnext
    obtain ⟨b, hb, -⟩ := resolve_eq_ok hj₀
    have hlt : j₀ < places.length := by
      rw [hlen]
      exact (List.getElem?_eq_some_iff.1 hb).1
    obtain ⟨hl, hiff, hall⟩ := ih (by rw [List.length_set, hlen]) hrest
    refine ⟨hl, fun j p => ?_, fun s p hm => ?_⟩
    · -- the place was free, so taking it hides no tensor placed before
      have hset : (places.set j₀ (some p₀))[j]? = some (some p) ↔
          places[j]? = some (some p) ∨ j₀ = j ∧ p₀ = p := by
        by_cases hj : j₀ = j
        · subst hj
          simp [List.getElem?_set_self hlt, hfree]
        · simp [List.getElem?_set_ne hj, hj]
      rw [hiff, hset]
      constructor
      · rintro ((hp | ⟨rfl, rfl⟩) | ⟨s, hm, hs⟩)
        · exact .inl hp
        · exact .inr ⟨s₀, List.mem_cons_self, hj₀⟩
        · exact .inr ⟨s, List.mem_cons_of_mem _ hm, hs⟩
      · rintro (hp | ⟨s, hm, hs⟩)
        · exact .inl (.inl hp)
        · rcases List.mem_cons.1 hm with heq | hm
          · cases heq
            exact .inl (.inr ⟨Except.ok.inj (hj₀.symm.trans hs), rfl⟩)
          · exact .inr ⟨s, hm, hs⟩
    · rcases List.mem_cons.1 hm with heq | hm
      · cases heq
        exact ⟨j₀, hj₀⟩
      · exact hall s p hm

theorem requireAll_eq_ok {places : List (Option Nat)} {all : List Nat}
    (hlen : places.length = (table.side d).length) (h : table.requireAll d places = .ok all) :
    places = all.map some := by
  have hmap := mapM_eq_ok_iff.1 h
  have hall : all.length = places.length := by
    simpa [hlen] using (congrArg List.length hmap).symm
  apply List.ext_getElem (by simp [hall])
  intro i h₁ h₂
  have hi := congrArg (fun l => l[i]?) hmap
  have hside : i < (table.side d).length := hlen ▸ h₁
  simp only [List.getElem?_map, List.getElem?_eq_getElem (show i < all.length by omega),
    List.getElem?_eq_getElem (show i < ((table.side d).zip places).length by simp; omega),
    Option.map_some, List.getElem_zip, Option.some.injEq] at hi
  cases hp : places[i] with
  | none => simp [hp] at hi
  | some p =>
    simp only [hp, Except.ok.injEq] at hi
    simp [hi]

structure Pairs (table : BindingTable) (d : Direction) (supplied : List NamedTensor)
    (places : List Nat) : Prop where
  length_eq : places.length = (table.side d).length
  place_iff : ∀ j p : Nat, places[j]? = some p ↔
    ∃ s, supplied[p]? = some s ∧ table.resolve d s = .ok j
  resolves : ∀ (p : Nat) s, supplied[p]? = some s → ∃ j, table.resolve d s = .ok j

theorem Pairs.of_bindSide {places : List (Option Nat)} {all : List Nat}
    (hbind : table.bindSide d supplied = .ok places) (hall : table.requireAll d places = .ok all) :
    table.Pairs d supplied all := by
  obtain ⟨hlen, hiff, hresolves⟩ := foldlM_bindOne (by simp) hbind
  obtain rfl := requireAll_eq_ok hlen hall
  refine ⟨by simpa using hlen, fun j p => ?_, fun p s hs =>
    hresolves s p (List.mem_zipIdx_iff_getElem?.2 hs)⟩
  have hplace : all[j]? = some p ↔ (all.map some)[j]? = some (some p) := by
    rw [List.getElem?_map]
    cases all[j]? <;> simp
  have hnone : (List.replicate (table.side d).length (none : Option Nat))[j]? ≠ some (some p) := by
    rw [List.getElem?_replicate]
    split <;> simp
  rw [hplace, hiff]
  simp only [hnone, false_or, List.mem_zipIdx_iff_getElem?]

theorem pairs_of_bindAll {inputs outputs : List NamedTensor} {places : List Nat × List Nat}
    (h : table.bindAll inputs outputs = .ok places) :
    table.Pairs .input inputs places.1 ∧ table.Pairs .output outputs places.2 := by
  obtain ⟨ins, hins, h⟩ := except_bind_eq_ok_iff.1 h
  obtain ⟨outs, houts, h⟩ := except_bind_eq_ok_iff.1 h
  obtain ⟨allIns, hallIns, h⟩ := except_bind_eq_ok_iff.1 h
  obtain ⟨allOuts, hallOuts, h⟩ := except_bind_eq_ok_iff.1 h
  cases h
  exact ⟨.of_bindSide hins hallIns, .of_bindSide houts hallOuts⟩

end BindingTable

def suppliedMemory (supplied : List NamedTensor) (name : String) : Option Memory :=
  (supplied.find? fun s => s.name == name).map (·.tensor.memory)

section Paired

variable {g : Graph} {table : BindingTable} {d : Direction} {supplied : List NamedTensor}
  {places : List Nat} {j p : Nat} {b : Binding}

theorem BindingTable.Pairs.exists_place (hp : table.Pairs d supplied places)
    (hb : (table.side d)[j]? = some b) :
    ∃ p s, places[j]? = some p ∧ supplied[p]? = some s ∧ s.name = b.name ∧
      s.tensor.memory.extent = b.descriptor.extent := by
  have hj : j < places.length := by
    rw [hp.length_eq]
    exact (List.getElem?_eq_some_iff.1 hb).1
  obtain ⟨s, hs, hr⟩ := (hp.place_iff j _).1 (List.getElem?_eq_getElem hj)
  obtain ⟨b', hb', hname, hextent⟩ := BindingTable.resolve_eq_ok hr
  obtain rfl := Option.some.inj (hb.symm.trans hb')
  exact ⟨_, s, List.getElem?_eq_getElem hj, hs, hname.symm, hextent⟩

/-- Two tensors of one name are one tensor. -/
theorem BindingTable.Pairs.place_unique (hp : table.Pairs d supplied places) (hv : g.Valid table)
    {q : Nat} {s t : NamedTensor} (hs : supplied[p]? = some s) (ht : supplied[q]? = some t)
    (hname : s.name = t.name) : p = q := by
  obtain ⟨i, hi⟩ := hp.resolves p s hs
  obtain ⟨j, hj⟩ := hp.resolves q t ht
  obtain ⟨a, ha, han, -⟩ := BindingTable.resolve_eq_ok hi
  obtain ⟨b, hb, hbn, -⟩ := BindingTable.resolve_eq_ok hj
  obtain rfl := hv.index_unique ha hb (.inl (by rw [han, hbn, hname]))
  have hpi := (hp.place_iff i p).2 ⟨s, hs, hi⟩
  have hqi := (hp.place_iff i q).2 ⟨t, ht, hj⟩
  exact Option.some.inj (hpi.symm.trans hqi)

theorem BindingTable.Pairs.suppliedMemory_eq (hp : table.Pairs d supplied places)
    (hv : g.Valid table) (hb : (table.side d)[j]? = some b) (hj : places[j]? = some p) :
    suppliedMemory supplied b.name = (supplied[p]?).map (·.tensor.memory) := by
  obtain ⟨p', s, hp', hs, hname, -⟩ := hp.exists_place hb
  obtain rfl := Option.some.inj (hj.symm.trans hp')
  rw [suppliedMemory]
  cases hf : supplied.find? fun s => s.name == b.name with
  | none =>
    have := List.find?_eq_none.1 hf s (List.mem_of_getElem? hs)
    simp [hname] at this
  | some t =>
    obtain ⟨q, hq⟩ := List.mem_iff_getElem?.1 (List.mem_of_find?_eq_some hf)
    have htn : t.name = b.name := by simpa using List.find?_some hf
    obtain rfl := hp.place_unique hv hs hq (hname.trans htn.symm)
    rw [hq]

theorem BindingTable.Pairs.suppliedMemory_of_mem (hp : table.Pairs d supplied places)
    (hv : g.Valid table) {s : NamedTensor} (hs : s ∈ supplied) :
    suppliedMemory supplied s.name = some s.tensor.memory := by
  obtain ⟨p, hs⟩ := List.mem_iff_getElem?.1 hs
  obtain ⟨j, hj⟩ := hp.resolves p s hs
  obtain ⟨b, hb, hname, -⟩ := resolve_eq_ok hj
  rw [← hname, hp.suppliedMemory_eq hv hb ((hp.place_iff j p).2 ⟨s, hs, hj⟩), hs, Option.map_some]

theorem BindingTable.Pairs.fed (hp : table.Pairs .input supplied places) (hv : g.Valid table) :
    table.Fed (suppliedMemory supplied) := by
  intro b hb
  obtain ⟨j, hj⟩ := List.mem_iff_getElem?.1 hb
  obtain ⟨p, s, hplace, hs, -, hextent⟩ := hp.exists_place (d := .input) hj
  refine ⟨s.tensor.memory, ?_, hextent⟩
  rw [hp.suppliedMemory_eq (d := .input) hv hj hplace, hs, Option.map_some]

/-- The memories bound to the inputs, in the order of the table. -/
theorem BindingTable.Pairs.getElem?_bound (hp : table.Pairs .input supplied places)
    (hv : g.Valid table) (hb : table.inputs[j]? = some b) :
    (places.filterMap fun place => (supplied[place]?).map (·.tensor.memory))[j]? =
      suppliedMemory supplied b.name := by
  have hsome : ∀ place ∈ places, ((supplied[place]?).map (·.tensor.memory)).isSome = true := by
    intro place hm
    obtain ⟨i, hi⟩ := List.mem_iff_getElem?.1 hm
    obtain ⟨s, hs, -⟩ := (hp.place_iff i place).1 hi
    simp [hs]
  obtain ⟨p, s, hplace, -⟩ := hp.exists_place (d := .input) hb
  have hmap := congrArg (fun l => l[j]?) (map_eq_map_filterMap hsome)
  simp only [List.getElem?_map, hplace, Option.map_some] at hmap
  obtain ⟨m, hm, heq⟩ := Option.map_eq_some_iff.1 hmap.symm
  rw [hp.suppliedMemory_eq (d := .input) hv hb hplace, hm, heq]

end Paired

end LayerGraph
