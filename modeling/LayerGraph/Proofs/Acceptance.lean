import LayerGraph.Proofs.Supply

/-!
# Which tensors a network accepts

The tensors of a side are accepted when they have the names of its bindings, each once and
in any order, and every tensor has the type and the size of the binding of its name.
-/

set_option autoImplicit false

namespace LayerGraph

namespace BindingTable

variable {table : BindingTable} {d : Direction} {supplied : List NamedTensor} {s : NamedTensor}
  {j : Nat}

structure Accepts (table : BindingTable) (d : Direction) (supplied : List NamedTensor) : Prop where
  names : (supplied.map (·.name)).Perm ((table.side d).map (·.name))
  fits : ∀ s ∈ supplied, ∀ b ∈ table.side d, b.name = s.name → s.Fits b

section Named

variable (hnames : ((table.side d).map (·.name)).Nodup)

include hnames

theorem resolve_eq_ok_iff : table.resolve d s = .ok j ↔
    ∃ b, (table.side d)[j]? = some b ∧ b.name = s.name ∧ s.Fits b := by
  refine ⟨fits_of_resolve, ?_⟩
  rintro ⟨b, hb, hname, htype, hcount⟩
  have hindex : table.indexOf? d s.name = some j := by
    obtain ⟨hlt, rfl⟩ := List.getElem?_eq_some_iff.1 hb
    refine List.findIdx?_eq_some_iff_getElem.2 ⟨hlt, by simp [hname], fun i hi => ?_⟩
    have hi' := List.getElem?_eq_getElem (Nat.lt_trans hi hlt)
    simp only [beq_iff_eq]
    intro hsame
    exact Nat.ne_of_lt hi (index_unique_of_nodup hnames hi' hb (hsame.trans hname.symm))
  have hfind : table.find? d s.name = some b := by
    rw [find?, List.find?_eq_bind_findIdx?_getElem?]
    rw [indexOf?] at hindex
    rw [hindex, Option.bind_some, hb]
  simp [resolve, hindex, hfind, htype, hcount]

end Named

theorem exists_bindOne_iff {places : List (Option Nat)} {p : Nat} :
    (∃ next, table.bindOne d places (s, p) = .ok next) ↔
      ∃ j, table.resolve d s = .ok j ∧ ∀ q, places[j]? ≠ some (some q) := by
  constructor
  · rintro ⟨next, h⟩
    obtain ⟨j, hj, hfree, -⟩ := bindOne_eq_ok h
    exact ⟨j, hj, hfree⟩
  · rintro ⟨j, hj, hfree⟩
    have hnone : (places[j]?).join.isSome = false := by
      cases hp : places[j]? with
      | none => rfl
      | some place =>
        cases place with
        | none => rfl
        | some q => exact absurd hp (hfree q)
    refine ⟨places.set j (some p), ?_⟩
    rw [bindOne, hj]
    simp [bind, Except.bind, hnone, pure, Except.pure]

/-- The tensors of a side find a place when each resolves to a binding of its own. -/
theorem exists_foldlM_bindOne_iff {pairs : List (NamedTensor × Nat)} {places : List (Option Nat)}
    (hlen : places.length = (table.side d).length) :
    (∃ result, pairs.foldlM (table.bindOne d) places = .ok result) ↔
      ∃ js : List Nat, pairs.map (fun pair => table.resolve d pair.1) = js.map .ok ∧ js.Nodup ∧
        ∀ j ∈ js, ∀ q, places[j]? ≠ some (some q) := by
  induction pairs generalizing places with
  | nil => exact ⟨fun _ => ⟨[], rfl, List.nodup_nil, by simp⟩, fun _ => ⟨places, rfl⟩⟩
  | cons pair rest ih =>
    obtain ⟨s, p⟩ := pair
    have hnext : ∀ {j}, table.resolve d s = .ok j →
        (places.set j (some p)).length = (table.side d).length ∧
        ∀ i, (∀ q, (places.set j (some p))[i]? ≠ some (some q)) ↔
          i ≠ j ∧ ∀ q, places[i]? ≠ some (some q) := by
      intro j hj
      obtain ⟨b, hb, -⟩ := fits_of_resolve hj
      have hlt : j < places.length := hlen ▸ (List.getElem?_eq_some_iff.1 hb).1
      refine ⟨by simp [hlen], fun i => ?_⟩
      by_cases hi : i = j
      · subst hi
        simp [List.getElem?_set_self hlt]
      · rw [List.getElem?_set_ne (Ne.symm hi)]
        simp [hi]
    constructor
    · rintro ⟨result, h⟩
      rw [List.foldlM_cons, except_bind_eq_ok_iff] at h
      obtain ⟨next, hone, hrest⟩ := h
      obtain ⟨j, hj, hfree, rfl⟩ := bindOne_eq_ok hone
      obtain ⟨hlen', hfree'⟩ := hnext hj
      obtain ⟨js, hjs, hnodup, hall⟩ := (ih hlen').1 ⟨result, hrest⟩
      refine ⟨j :: js, by simp [hj, hjs], List.nodup_cons.2 ⟨fun hmem => ?_, hnodup⟩, ?_⟩
      · exact ((hfree' j).1 (hall j hmem)).1 rfl
      · exact List.forall_mem_cons.2 ⟨hfree, fun i hi => ((hfree' i).1 (hall i hi)).2⟩
    · rintro ⟨js, hjs, hnodup, hall⟩
      obtain ⟨j, js, rfl, hj, hjs⟩ := List.map_eq_cons_iff.1 hjs.symm
      obtain ⟨hnew, hnodup⟩ := List.nodup_cons.1 hnodup
      obtain ⟨hfree, hall⟩ := List.forall_mem_cons.1 hall
      obtain ⟨hlen', hfree'⟩ := hnext hj.symm
      obtain ⟨next, hone⟩ := exists_bindOne_iff.2 ⟨j, hj.symm, hfree⟩
      obtain ⟨j', hj', -, rfl⟩ := bindOne_eq_ok hone
      obtain rfl := Except.ok.inj (hj.trans hj')
      obtain ⟨result, hrest⟩ := (ih hlen').2 ⟨js, hjs.symm, hnodup, fun i hi =>
        (hfree' i).2 ⟨fun hij => hnew (hij ▸ hi), hall i hi⟩⟩
      exact ⟨result, by rw [List.foldlM_cons, hone]; exact hrest⟩

theorem exists_requireAll_iff {places : List (Option Nat)}
    (hlen : places.length = (table.side d).length) :
    (∃ all, table.requireAll d places = .ok all) ↔
      ∀ j < (table.side d).length, ∃ p, places[j]? = some (some p) := by
  constructor
  · rintro ⟨all, h⟩ j hj
    obtain rfl := requireAll_eq_ok hlen h
    have hj : j < all.length := by simpa [← hlen] using hj
    exact ⟨all[j], by simp [hj]⟩
  · intro h
    refine exists_mapM_eq_ok fun ⟨b, place⟩ hmem => ?_
    obtain ⟨j, hj⟩ := List.mem_iff_getElem?.1 hmem
    obtain ⟨hb, hplace⟩ := List.getElem?_zip_eq_some.1 hj
    obtain ⟨p, hp⟩ := h j (List.getElem?_eq_some_iff.1 hb).1
    obtain rfl := Option.some.inj (hplace.symm.trans hp)
    exact ⟨p, rfl⟩

/-- A side is bound when its tensors resolve to its bindings one to one. -/
theorem exists_bound_iff : (∃ places all, table.bindSide d supplied = .ok places ∧
      table.requireAll d places = .ok all) ↔
    ∃ js : List Nat, supplied.map (table.resolve d) = js.map .ok ∧
      js.Perm (List.range (table.side d).length) := by
  have hstart : (List.replicate (table.side d).length (none : Option Nat)).length =
      (table.side d).length := List.length_replicate
  have hfree : ∀ (j q : Nat), (List.replicate (table.side d).length none)[j]? ≠ some (some q) := by
    intro j q
    rw [List.getElem?_replicate]
    split <;> simp
  have hpairs : supplied.zipIdx.map (fun pair => table.resolve d pair.1) =
      supplied.map (table.resolve d) := by
    rw [← Function.comp_def, ← List.map_map, List.zipIdx_map_fst]
  constructor
  · rintro ⟨places, all, hbind, hall⟩
    obtain ⟨js, hjs, hnodup, -⟩ := (exists_foldlM_bindOne_iff hstart).1 ⟨places, hbind⟩
    obtain ⟨hlen, hplaces, -⟩ := foldlM_bindOne hstart hbind
    rw [hpairs] at hjs
    refine ⟨js, hjs, (List.perm_ext_iff_of_nodup hnodup List.nodup_range).2 fun j => ?_⟩
    rw [mem_of_mapM_eq_ok (mapM_eq_ok_iff.2 hjs), List.mem_range]
    constructor
    · rintro ⟨s, -, hs⟩
      obtain ⟨b, hb, -⟩ := fits_of_resolve hs
      exact (List.getElem?_eq_some_iff.1 hb).1
    · intro hj
      obtain ⟨p, hp⟩ := (exists_requireAll_iff hlen).1 ⟨all, hall⟩ j hj
      obtain hp | ⟨s, hs, hr⟩ := (hplaces j p).1 hp
      · exact absurd hp (hfree j p)
      · exact ⟨s, List.fst_mem_of_mem_zipIdx hs, hr⟩
  · rintro ⟨js, hjs, hperm⟩
    obtain ⟨places, hbind⟩ := (exists_foldlM_bindOne_iff hstart).2
      ⟨js, hpairs.trans hjs, hperm.nodup_iff.2 List.nodup_range, fun j _ => hfree j⟩
    obtain ⟨hlen, hplaces, -⟩ := foldlM_bindOne hstart hbind
    obtain ⟨all, hall⟩ := (exists_requireAll_iff hlen).2 fun j hj => by
      obtain ⟨s, hs, hr⟩ := (mem_of_mapM_eq_ok (mapM_eq_ok_iff.2 hjs)).1
        (hperm.mem_iff.2 (List.mem_range.2 hj))
      obtain ⟨p, hp⟩ := List.mem_iff_getElem?.1 hs
      exact ⟨p, (hplaces j p).2 (.inr ⟨s, List.mem_zipIdx_iff_getElem?.2 hp, hr⟩)⟩
    exact ⟨places, all, hbind, hall⟩

theorem accepts_iff (hnames : ((table.side d).map (·.name)).Nodup) : table.Accepts d supplied ↔
    ∃ js : List Nat, supplied.map (table.resolve d) = js.map .ok ∧
      js.Perm (List.range (table.side d).length) := by
  let nameAt (j : Nat) : Option String := ((table.side d)[j]?).map (·.name)
  have hside : (List.range (table.side d).length).map nameAt =
      ((table.side d).map (·.name)).map some := by
    apply List.ext_getElem?
    intro j
    by_cases hj : j < (table.side d).length <;> simp [nameAt, hj]
  have hresolved : ∀ {js : List Nat}, supplied.map (table.resolve d) = js.map .ok →
      js.map nameAt = (supplied.map (·.name)).map some := by
    intro js hjs
    rw [List.map_map]
    refine map_eq_map_of_mapM (mapM_eq_ok_iff.2 hjs) fun s j hj => ?_
    obtain ⟨b, hb, hname, -⟩ := fits_of_resolve hj
    simp [nameAt, hb, hname]
  constructor
  · intro h
    obtain ⟨js, hjs⟩ : ∃ js, supplied.mapM (table.resolve d) = .ok js := by
      refine exists_mapM_eq_ok fun s hs => ?_
      obtain ⟨b, hb, hname⟩ := List.mem_map.1 (h.names.mem_iff.1 (List.mem_map_of_mem hs))
      obtain ⟨j, hj⟩ := List.mem_iff_getElem?.1 hb
      exact ⟨j, (resolve_eq_ok_iff hnames).2 ⟨b, hj, hname, h.fits s hs b hb hname⟩⟩
    have hjs := mapM_eq_ok_iff.1 hjs
    have hperm : (js.map nameAt).Perm ((List.range (table.side d).length).map nameAt) := by
      rw [hside, hresolved hjs]
      exact h.names.map some
    have hnodup : (js.map nameAt).Nodup := by
      rw [hperm.nodup_iff, hside]
      exact hnames.map (Option.some_injective _)
    refine ⟨js, hjs, (List.perm_ext_iff_of_nodup hnodup.of_map List.nodup_range).2 fun j => ?_⟩
    constructor
    · intro hj
      obtain ⟨s, -, hs⟩ := (mem_of_mapM_eq_ok (mapM_eq_ok_iff.2 hjs)).1 hj
      obtain ⟨b, hb, -⟩ := fits_of_resolve hs
      exact List.mem_range.2 (List.getElem?_eq_some_iff.1 hb).1
    · intro hj
      obtain ⟨i, hi, hname⟩ := List.mem_map.1 (hperm.mem_iff.2 (List.mem_map_of_mem hj))
      have hb := List.getElem?_eq_getElem (List.mem_range.1 hj)
      rw [show nameAt j = some _ from congrArg (Option.map _) hb] at hname
      obtain ⟨a, ha, hname⟩ := Option.map_eq_some_iff.1 hname
      rwa [← index_unique_of_nodup hnames ha hb hname]
  · rintro ⟨js, hjs, hperm⟩
    refine ⟨?_, fun s hs b hb hname => ?_⟩
    · rw [← List.map_perm_map_iff (Option.some_injective _), ← hside, ← hresolved hjs]
      exact hperm.map nameAt
    · have hmem : table.resolve d s ∈ js.map .ok := hjs ▸ List.mem_map_of_mem hs
      obtain ⟨j, -, hj⟩ := List.mem_map.1 hmem
      obtain ⟨b', hb', hname', hfits⟩ := fits_of_resolve hj.symm
      obtain ⟨i, hi⟩ := List.mem_iff_getElem?.1 hb
      obtain rfl := index_unique_of_nodup hnames hi hb' (hname.trans hname'.symm)
      obtain rfl := Option.some.inj (hi.symm.trans hb')
      exact hfits

theorem exists_bindAll_iff {inputs outputs : List NamedTensor}
    (hnames : ∀ d, ((table.side d).map (·.name)).Nodup) :
    (∃ places, table.bindAll inputs outputs = .ok places) ↔
      table.Accepts .input inputs ∧ table.Accepts .output outputs := by
  rw [accepts_iff (hnames _), accepts_iff (hnames _), ← exists_bound_iff, ← exists_bound_iff]
  constructor
  · rintro ⟨places, h⟩
    obtain ⟨ins, hins, h⟩ := except_bind_eq_ok_iff.1 h
    obtain ⟨outs, houts, h⟩ := except_bind_eq_ok_iff.1 h
    obtain ⟨allIns, hallIns, h⟩ := except_bind_eq_ok_iff.1 h
    obtain ⟨allOuts, hallOuts, -⟩ := except_bind_eq_ok_iff.1 h
    exact ⟨⟨ins, allIns, hins, hallIns⟩, outs, allOuts, houts, hallOuts⟩
  · rintro ⟨⟨ins, allIns, hins, hallIns⟩, outs, allOuts, houts, hallOuts⟩
    refine ⟨(allIns, allOuts), ?_⟩
    rw [bindAll, hins, houts]
    simp [bind, Except.bind, hallIns, hallOuts, pure, Except.pure]

end BindingTable

end LayerGraph
