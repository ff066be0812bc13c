import LayerGraph.Proofs.Acceptance
import LayerGraph.Proofs.Execution

/-!
# Which calls are refused

A call runs when the tensors of both sides have the names of the binding table, each once,
and fit the bindings of their names. Every other call is refused before anything runs, with
an error that tells what is wrong, and leaves the network and the caller's memory alone.
-/

set_option autoImplicit false

namespace LayerGraph

def suppliedOn (inputs outputs : List NamedTensor) : Direction → List NamedTensor
  | .input => inputs
  | .output => outputs

/-- What an error of the binding phase tells of the tensors supplied on each side. The errors
of later phases tell nothing of them. -/
def ExecutionError.Explains (table : BindingTable) (supplied : Direction → List NamedTensor) :
    ExecutionError → Prop
  | .unknownBoundary d name =>
    name ∈ (supplied d).map (·.name) ∧ name ∉ (table.side d).map (·.name)
  | .typeMismatch d name expected actual => ∃ s ∈ supplied d, ∃ b ∈ table.side d,
    s.name = name ∧ b.name = name ∧ b.descriptor.dataType = expected ∧
      s.tensor.descriptor.dataType = actual ∧ expected ≠ actual
  | .shapeMismatch d name expected actual => ∃ s ∈ supplied d, ∃ b ∈ table.side d,
    s.name = name ∧ b.name = name ∧ b.descriptor.shape = expected ∧
      s.tensor.descriptor.shape = actual ∧ expected.numElements ≠ actual.numElements
  | .missingBinding d name =>
    name ∈ (table.side d).map (·.name) ∧ name ∉ (supplied d).map (·.name)
  | .duplicateBinding d name => 2 ≤ ((supplied d).map (·.name)).count name
  | .invalidSlot _ _ => False
  | .workload _ _ => False

namespace BindingTable

variable {table : BindingTable} {supplied : Direction → List NamedTensor} {d : Direction}
  {s : NamedTensor} {e : ExecutionError}

theorem explains_of_resolve (hs : s ∈ supplied d) (h : table.resolve d s = .error e) :
    e.Explains table supplied := by
  unfold resolve at h
  split at h
  · rename_i index binding hindex hfind
    have hb := List.mem_of_find?_eq_some hfind
    have hname : binding.name = s.name := by simpa using List.find?_some hfind
    simp only at h
    split_ifs at h with htype hcount
    · cases h
      exact ⟨s, hs, binding, hb, rfl, hname, rfl, rfl, htype⟩
    · cases h
      exact ⟨s, hs, binding, hb, rfl, hname, rfl, rfl, hcount⟩
  · rename_i hnone
    cases h
    refine ⟨List.mem_map_of_mem hs, fun hmem => ?_⟩
    obtain ⟨b, hb, hname⟩ := List.mem_map.1 hmem
    have hindex : (table.indexOf? d s.name).isSome = true := by
      rw [indexOf?, List.findIdx?_isSome, List.any_eq_true]
      exact ⟨b, hb, by simp [hname]⟩
    have hfind : (table.find? d s.name).isSome = true := by
      rw [find?, List.find?_isSome]
      exact ⟨b, hb, by simp [hname]⟩
    obtain ⟨i, hi⟩ := Option.isSome_iff_exists.1 hindex
    obtain ⟨b', hb'⟩ := Option.isSome_iff_exists.1 hfind
    exact hnone i b' hi hb'

/-- A side is refused at the first tensor that resolves to no binding, or to the binding of an
earlier one. -/
theorem explains_of_bindOne {before rest : List NamedTensor} {places : List (Option Nat)} {p : Nat}
    (hsupplied : supplied d = before ++ s :: rest)
    (hplaces : ∀ j q : Nat, places[j]? = some (some q) → ∃ t ∈ before, table.resolve d t = .ok j)
    (h : table.bindOne d places (s, p) = .error e) : e.Explains table supplied := by
  have hs : s ∈ supplied d := by simp [hsupplied]
  rcases except_bind_eq_error_iff.1 h with h | ⟨j, hj, h⟩
  · exact explains_of_resolve hs h
  · by_cases hp : (places[j]?).join.isSome = true
    · simp only [hp, if_true] at h
      cases h
      obtain ⟨q, hq⟩ := Option.isSome_iff_exists.1 hp
      obtain ⟨t, ht, htj⟩ := hplaces j q (Option.join_eq_some_iff.1 hq)
      obtain ⟨a, ha, haname, -⟩ := fits_of_resolve htj
      obtain ⟨b, hb, hbname, -⟩ := fits_of_resolve hj
      obtain rfl := Option.some.inj (ha.symm.trans hb)
      have hone : 1 ≤ (before.map (·.name)).count s.name :=
        List.one_le_count_iff.2 (List.mem_map.2 ⟨t, ht, haname.symm.trans hbname⟩)
      simp only [ExecutionError.Explains, hsupplied, List.map_append, List.map_cons,
        List.count_append, List.count_cons_self]
      omega
    · simp only [hp, Bool.false_eq_true, if_false] at h
      cases h

theorem explains_of_foldlM {before rest : List NamedTensor} {places : List (Option Nat)} {p : Nat}
    (hlen : places.length = (table.side d).length) (hsupplied : supplied d = before ++ rest)
    (hplaces : ∀ j q : Nat, places[j]? = some (some q) → ∃ t ∈ before, table.resolve d t = .ok j)
    (h : (rest.zipIdx p).foldlM (table.bindOne d) places = .error e) :
    e.Explains table supplied := by
  induction rest generalizing before places p with
  | nil => cases h
  | cons s rest ih =>
    rw [List.zipIdx_cons, List.foldlM_cons, except_bind_eq_error_iff] at h
    rcases h with h | ⟨next, hnext, h⟩
    · exact explains_of_bindOne hsupplied hplaces h
    · obtain ⟨j, hj, -, rfl⟩ := bindOne_eq_ok hnext
      refine ih (by simpa using hlen) (hsupplied.trans (List.append_cons ..)) (fun i q hi => ?_) h
      by_cases hij : j = i
      · exact ⟨s, by simp, hij ▸ hj⟩
      · rw [List.getElem?_set_ne hij] at hi
        obtain ⟨t, ht, hti⟩ := hplaces i q hi
        exact ⟨t, by simp [ht], hti⟩

theorem explains_of_bindSide (h : table.bindSide d (supplied d) = .error e) :
    e.Explains table supplied := by
  refine explains_of_foldlM (by simp) (List.nil_append _).symm (fun j q hj => ?_) h
  rw [List.getElem?_replicate] at hj
  split at hj <;> simp at hj

/-- Once all tensors of a side have found their bindings, a binding without a place is one
whose name was not supplied. -/
theorem explains_of_requireAll (hnames : ((table.side d).map (·.name)).Nodup)
    {places : List (Option Nat)} (hbind : table.bindSide d (supplied d) = .ok places)
    (h : table.requireAll d places = .error e) : e.Explains table supplied := by
  obtain ⟨hlen, hplaces, hresolves⟩ := foldlM_bindOne (by simp) hbind
  obtain ⟨⟨b, place⟩, hmem, hfault⟩ := exists_of_mapM_eq_error h
  cases place with
  | some q => cases hfault
  | none =>
    cases hfault
    obtain ⟨j, hj⟩ := List.mem_iff_getElem?.1 hmem
    obtain ⟨hb, hplace⟩ := List.getElem?_zip_eq_some.1 hj
    refine ⟨List.mem_map_of_mem (List.mem_of_getElem? hb), fun hsupplied => ?_⟩
    obtain ⟨s, hs, hname⟩ := List.mem_map.1 hsupplied
    obtain ⟨p, hp⟩ := List.mem_iff_getElem?.1 hs
    have hpair : (s, p) ∈ (supplied d).zipIdx := List.mem_zipIdx_iff_getElem?.2 hp
    obtain ⟨i, hi⟩ := hresolves s p hpair
    obtain ⟨b', hb', hname', -⟩ := fits_of_resolve hi
    obtain rfl := index_unique_of_nodup hnames hb hb' (hname.symm.trans hname'.symm)
    have := (hplaces j p).2 (.inr ⟨s, hpair, hi⟩)
    rw [hplace] at this
    cases this

theorem explains_of_bindAll {inputs outputs : List NamedTensor}
    (hnames : ∀ d, ((table.side d).map (·.name)).Nodup)
    (h : table.bindAll inputs outputs = .error e) :
    e.Explains table (suppliedOn inputs outputs) := by
  rcases except_bind_eq_error_iff.1 h with h | ⟨ins, hins, h⟩
  · exact explains_of_bindSide (d := .input) h
  rcases except_bind_eq_error_iff.1 h with h | ⟨outs, houts, h⟩
  · exact explains_of_bindSide (d := .output) h
  rcases except_bind_eq_error_iff.1 h with h | ⟨allIns, -, h⟩
  · exact explains_of_requireAll (d := .input) (hnames _) hins h
  rcases except_bind_eq_error_iff.1 h with h | ⟨allOuts, -, h⟩
  · exact explains_of_requireAll (d := .output) (hnames _) houts h
  · cases h

end BindingTable

/-- Names are compared as the table is built, whatever the graph. -/
theorem Graph.names_of_bindingTable {g : Graph} {table : BindingTable}
    (h : g.bindingTable = .ok table) (d : Direction) : ((table.side d).map (·.name)).Nodup := by
  refine foldlM_keeps (P := fun t => ∀ d, ((t.side d).map (·.name)).Nodup)
    (fun t node next hnodup hnext d => ?_) h (fun d => by cases d <;> exact List.nodup_nil) d
  have hbound : node.kind = .input ∨ node.kind = .output → (g.boundary? node).isSome := by
    intro hk
    unfold bindNode at hnext
    unfold boundary?
    cases hop : node.operation <;> simp only [hop] at hnext ⊢
    case input id => cases hd : node.outputDescriptor? 0 <;> simp_all
    case output id => cases hd : g.inputDescriptor? ⟨node.id, 0⟩ <;> simp_all
    all_goals simp [Node.kind, hop, Operation.kind] at hk
  rw [bindNode_eq hbound] at hnext
  cases hb : g.boundary? node with
  | none =>
    rw [hb] at hnext
    cases hnext
    exact hnodup d
  | some entry =>
    rw [hb] at hnext
    have hadd : t.add entry = .ok next := hnext
    have hfold : [entry].foldlM BindingTable.add t = .ok next := by
      rw [List.foldlM_cons, hadd]
      rfl
    exact (BindingTable.side_foldlM hfold d).2 (hnodup d)

/-- An error of a run: a slot without memory, or what a workload reports. -/
def ExecutionError.OfRun (e : ExecutionError) : Prop :=
  (∃ name slot, e = .invalidSlot name slot) ∨ ∃ name cause, e = .workload name cause

theorem RunState.ofRun_of_step {bound : List Memory} {w : Workload} {state next : RunState}
    {e : ExecutionError} (h : step bound w state = (next, .error e)) : e.OfRun := by
  rcases htaken : state.takeAll (w.spec.outputs.map (·.slot)) with ⟨rest, taken⟩
  rw [step, htaken] at h
  cases hconnect : rest.connect taken bound w.spec with
  | error slot =>
    simp only [hconnect, Prod.mk.injEq, Except.error.injEq] at h
    exact .inl ⟨_, _, h.2.symm⟩
  | ok slots =>
    obtain ⟨read, written⟩ := slots
    cases hrun : (w.run read (written.map (·.2))).outcome with
    | ok _ => simp [hconnect, hrun] at h
    | error cause =>
      simp only [hconnect, hrun, Prod.mk.injEq, Except.error.injEq] at h
      exact .inr ⟨_, _, h.2.symm⟩

theorem RunState.ofRun_of_steps {bound : List Memory} {workloads : List Workload}
    {state final : RunState} {e : ExecutionError}
    (h : steps bound workloads state = (final, .error e)) : e.OfRun := by
  induction workloads generalizing state with
  | nil => cases h
  | cons w rest ih =>
    rw [steps] at h
    split at h
    · exact ih h
    · rename_i next error hstep
      cases h
      exact ofRun_of_step hstep

namespace Network

variable {g : Graph} {backend : BackendId} {registry : Registry} {n m : Network}

theorem bindings_execute (n : Network) (inputs outputs : List NamedTensor) :
    (n.execute inputs outputs).network.bindings = n.bindings := by
  unfold execute
  split <;> rfl

theorem bindings_of_leads (h : n.Leads m) : m.bindings = n.bindings := by
  induction h with
  | refl => rfl
  | tail _ hstep ih =>
    obtain ⟨inputs, outputs, rfl⟩ := hstep
    rw [bindings_execute, ih]

theorem names_of_load (hload : (load g backend registry).1 = .ok n) (d : Direction) :
    ((n.bindings.side d).map (·.name)).Nodup := by
  obtain ⟨plan, hplan, -, hn⟩ := load_eq_ok_iff.1 hload
  obtain ⟨-, -, h⟩ := except_bind_eq_ok_iff.1 hplan
  obtain ⟨table, htable, h⟩ := except_bind_eq_ok_iff.1 h
  obtain ⟨groups, -, h⟩ := except_bind_eq_ok_iff.1 h
  obtain ⟨steps, -, h⟩ := except_bind_eq_ok_iff.1 h
  cases h
  rw [hn]
  exact Graph.names_of_bindingTable htable d

theorem execute_refused {inputs outputs : List NamedTensor} {e : ExecutionError}
    (h : n.bindings.bindAll inputs outputs = .error e) :
    n.execute inputs outputs = ⟨n, outputs.map (·.tensor.memory), .error e⟩ := by
  rw [execute, h]

/-- A call is taken up exactly when both sides are accepted, and can then fail in a workload
only. Any other call is refused with an error that tells what is wrong, and leaves the
network and the caller's memory as they were. -/
theorem execute_takes_up_iff (hload : (load g backend registry).1 = .ok n) (hm : n.Leads m)
    (inputs outputs : List NamedTensor) :
    let supplied := suppliedOn inputs outputs
    let call := m.execute inputs outputs
    ((∃ places, m.bindings.bindAll inputs outputs = .ok places) ↔
        ∀ d, m.bindings.Accepts d (supplied d)) ∧
      ((∀ d, m.bindings.Accepts d (supplied d)) →
        (∀ d, ((supplied d).map (·.name)).Nodup) ∧ ∀ e, call.outcome = .error e → e.OfRun) ∧
      ((¬ ∀ d, m.bindings.Accepts d (supplied d)) → ∃ e, call.outcome = .error e ∧
        e.Explains m.bindings supplied ∧ call.network = m ∧
        call.outputs = outputs.map (·.tensor.memory)) := by
  intro supplied call
  have hnames : ∀ d, ((m.bindings.side d).map (·.name)).Nodup := by
    rw [bindings_of_leads hm]
    exact names_of_load hload
  have hiff : (∃ places, m.bindings.bindAll inputs outputs = .ok places) ↔
      ∀ d, m.bindings.Accepts d (supplied d) := by
    rw [BindingTable.exists_bindAll_iff hnames]
    exact ⟨fun h d => by cases d <;> [exact h.1; exact h.2], fun h => ⟨h .input, h .output⟩⟩
  refine ⟨hiff, fun haccepts => ⟨fun d => ?_, fun e he => ?_⟩, fun hrefused => ?_⟩
  · exact (haccepts d).names.nodup_iff.2 (hnames d)
  · obtain ⟨places, hplaces⟩ := hiff.2 haccepts
    simp only [call, execute, hplaces] at he
    exact RunState.ofRun_of_steps (Prod.ext rfl he)
  · cases hbind : m.bindings.bindAll inputs outputs with
    | ok places => exact absurd (hiff.1 ⟨places, hbind⟩) hrefused
    | error e =>
      refine ⟨e, ?_⟩
      rw [show call = _ from execute_refused hbind]
      exact ⟨rfl, BindingTable.explains_of_bindAll hnames hbind, rfl, rfl⟩

theorem execute_takes_up_iff_twice :
    let x : NamedTensor := ⟨"x", ⟨wide, ⟨.f32, .replicate 6 0x3f800000⟩, by decide⟩⟩
    let stale (name : String) : NamedTensor := ⟨name, ⟨tall, ⟨.f32, .replicate 6 7⟩, by decide⟩⟩
    let outputs := [stale "z", stale "y"]
    let m := (turningNetwork.execute [x] outputs).network
    (load turning referenceId (referenceBackend .nearest).registry).1 = .ok turningNetwork ∧
      turningNetwork.Leads m ∧ (∀ d, m.bindings.Accepts d (suppliedOn [x] outputs d)) ∧
      (¬ ∀ d, m.bindings.Accepts d (suppliedOn [x, x] outputs d)) ∧
      (m.execute [x, x] outputs).outcome = .error (.duplicateBinding .input "x") ∧
      (m.execute [x, x] outputs).network = m ∧
      (m.execute [x, x] outputs).outputs = [⟨.f32, .replicate 6 7⟩, ⟨.f32, .replicate 6 7⟩] := by
  intro x stale outputs m
  have hload := eq_ok_get (show (load turning referenceId
    (referenceBackend .nearest).registry).1.toOption.isSome = true by decide +kernel)
  have hm : turningNetwork.Leads m := .single ⟨_, _, rfl⟩
  have honce : m.bindings.bindAll [x] outputs = .ok ([0], [1, 0]) := by decide +kernel
  have htwice : m.bindings.bindAll [x, x] outputs = .error (.duplicateBinding .input "x") := by
    decide +kernel
  have haccepts := (execute_takes_up_iff hload hm [x] outputs).1.1 ⟨_, honce⟩
  obtain ⟨hiff, -, hrefused⟩ := execute_takes_up_iff hload hm [x, x] outputs
  have hnot : ¬ ∀ d, m.bindings.Accepts d (suppliedOn [x, x] outputs d) := by
    rw [← hiff, htwice]
    simp
  obtain ⟨e, he, -, hnetwork, houtputs⟩ := hrefused hnot
  refine ⟨hload, hm, haccepts, hnot, ?_, hnetwork, houtputs⟩
  rw [execute_refused htwice]

end Network

end LayerGraph
