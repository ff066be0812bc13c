import LayerGraph.Proofs.Execution
import LayerGraph.Proofs.Rules
import LayerGraph.Proofs.Runs

/-!
# A run of the optimizer

What every rule keeps, a run keeps, however far its budget reaches. So an optimized graph is
valid with the boundary it had, and its network does for the caller what the network of the
graph does.
-/

set_option autoImplicit false

namespace LayerGraph

open LayerGraph.Graph Network

namespace Rule

variable {rule : Rule} {table : BindingTable}

theorem standard_keeps (f : FloatAddition) (g : Graph) (h : rule ∈ standard) :
    rule.Keeps (Revises f table g) := by
  intro k id hk happlies
  obtain ⟨applied, next, happly, hrewrite⟩ := standard_rewrites h table k id hk.valid happlies
  exact ⟨applied, next, happly, hk.trans (hrewrite.revises hk.valid)⟩

theorem standard_keeps_valid (h : rule ∈ standard) : rule.Keeps fun g => g.Valid table := by
  intro g id hv happlies
  obtain ⟨applied, next, happly, hrewrite⟩ := standard_rewrites h table g id hv happlies
  exact ⟨applied, next, happly, hrewrite.valid hv⟩

end Rule

theorem Graph.Valid.validate_eq_ok {table : BindingTable} {g : Graph} (hv : g.Valid table) :
    g.validate = .ok () := hv.sound.validate_eq_ok_iff.2 ⟨table, hv⟩

theorem Graph.Valid.exists_run {table : BindingTable} {g : Graph} {rules : List Rule}
    (hv : g.Valid table) (hrules : ∀ rule ∈ rules, rule ∈ Rule.standard)
    (options : OptimizerOptions) (statistics : Bool) : ∃ report p,
    Optimizing.run rules options statistics ⟨g, [], []⟩ = .ok report p ∧ p.graph.Valid table ∧
      ∃ steps, Rule.Steps rules g steps p.graph ∧ report.applied = steps.map (·.1) ∧
        ∀ step ∈ steps, step.2.Valid table :=
  LayerGraph.exists_run (fun _ hh => hh.validate_eq_ok)
    (fun rule hr => Rule.standard_keeps_valid (hrules rule hr)) hv options statistics

/-- Optimizing a valid graph by standard rules succeeds, with a graph that refines it. -/
theorem optimize_refines {f : FloatAddition} {table : BindingTable} {g : Graph} {rules : List Rule}
    (hv : g.Valid table) (hs : g.Supported) (hrules : ∀ rule ∈ rules, rule ∈ Rule.standard)
    (options : OptimizerOptions) (statistics : Bool) :
    ∃ report, (optimize rules options statistics g).outcome = .ok report ∧
      Refines f table g (optimize rules options statistics g).graph := by
  obtain ⟨report, p, hrun, hrevises, -⟩ := exists_run (fun _ hh => hh.valid.validate_eq_ok)
    (fun rule hr => Rule.standard_keeps f g (hrules rule hr)) (Revises.refl hv) options statistics
  rw [optimize_of_run hrun]
  exact ⟨report, rfl, hrevises.refines hs⟩

namespace Network

variable {f : FloatAddition} {g h : Graph} {buffers buffers' : List PlanBuffer} {n n' : Network}
  {inputs outputs : List NamedTensor} {places : List Nat × List Nat}

/-- Networks of a graph and of one that refines it answer alike. -/
theorem Serves.execute_eq (hn : Serves f g buffers n) (hn' : Serves f h buffers' n')
    (hr : Refines f n.bindings g h) (hb : n.bindings.bindAll inputs outputs = .ok places) :
    (n.execute inputs outputs).outcome = .ok () ∧ (n'.execute inputs outputs).outcome = .ok () ∧
      (n'.execute inputs outputs).outputs = (n.execute inputs outputs).outputs := by
  have hbindings : n'.bindings = n.bindings :=
    Except.ok.inj (hn'.valid.bindings.symm.trans hr.valid.bindings)
  obtain ⟨final, memories, hrun, -, hlen, hvalues⟩ := hn.execute hb
  obtain ⟨final', memories', hrun', -, hlen', hvalues'⟩ := hn'.execute (hbindings ▸ hb)
  rw [hrun, hrun']
  refine ⟨rfl, rfl, (List.ext_getElem? fun i => ?_ : memories' = memories)⟩
  cases hs : outputs[i]? with
  | none =>
    have hi := List.getElem?_eq_none_iff.1 hs
    rw [List.getElem?_eq_none (by omega), List.getElem?_eq_none (by omega)]
  | some s =>
    obtain ⟨b, hmem, hname, hvalue⟩ := hvalues i s hs
    obtain ⟨b', hmem', hname', hvalue'⟩ := hvalues' i s hs
    have hfed := (BindingTable.pairs_of_bindAll hb).1.fed hn.valid
    have hsame : b' = b := by
      rw [hbindings] at hmem'
      obtain ⟨j, hj⟩ := List.mem_iff_getElem?.1 hmem
      obtain ⟨j', hj'⟩ := List.mem_iff_getElem?.1 hmem'
      obtain rfl := hn.valid.index_unique (d := .output) hj hj' (.inl (hname.trans hname'.symm))
      exact Option.some.inj (hj'.symm.trans hj)
    rw [hvalue', hvalue, hsame, hr.value _ hfed b hmem]

end Network

/-- Optimizing by standard rules, within any budget, changes nothing for the caller: the
optimized graph loads, and its network answers every accepted call as the network of the
graph does, whatever was called before. -/
theorem optimize_preserves_execution {f : FloatAddition} {g : Graph} {n : Network}
    {rules : List Rule} (options : OptimizerOptions) (statistics : Bool) (hg : g.Reachable)
    (hrules : ∀ rule ∈ rules, rule ∈ Rule.standard)
    (hload : (Network.load g referenceId (referenceBackend f).registry).1 = .ok n) :
    ∃ report n', (optimize rules options statistics g).outcome = .ok report ∧
      (Network.load (optimize rules options statistics g).graph referenceId
        (referenceBackend f).registry).1 = .ok n' ∧
      ∀ m m' inputs outputs places, n.Leads m → n'.Leads m' →
        m.bindings.bindAll inputs outputs = .ok places →
          (m.execute inputs outputs).outcome = .ok () ∧
          (m'.execute inputs outputs).outcome = .ok () ∧
          (m'.execute inputs outputs).outputs = (m.execute inputs outputs).outputs := by
  obtain ⟨buffers, hserves⟩ := Network.Serves.of_load hg.sound hload
  obtain ⟨report, hreport, hrefines⟩ :=
    optimize_refines (f := f) hserves.valid hserves.supported hrules options statistics
  obtain ⟨n', hload'⟩ := Network.exists_load (f := f) hrefines.valid hrefines.supported
  obtain ⟨buffers', hserves'⟩ := Network.Serves.of_load hrefines.valid.sound hload'
  refine ⟨report, n', hreport, hload', fun m m' inputs outputs places hm hm' hb => ?_⟩
  obtain ⟨hreached, hbindings⟩ := hserves.leads hm
  exact hreached.execute_eq (hserves'.leads hm').1 (hbindings ▸ hrefines) hb

def row : Descriptor := wide.withShape ⟨[1, 6], by decide, by decide, by decide⟩

def column : Descriptor := wide.withShape ⟨[6, 1], by decide, by decide, by decide⟩

def folding : Graph := Graph.empty.changed
  [.add (.input 0) "x", .setDescriptor ⟨0, 0⟩ wide,
    .add (.transpose swap) "t", .connect ⟨0, 0⟩ ⟨1, 0⟩, .setDescriptor ⟨1, 0⟩ tall,
    .add (.transpose swap) "u", .connect ⟨1, 0⟩ ⟨2, 0⟩, .setDescriptor ⟨2, 0⟩ wide,
    .add (.output 0) "y", .connect ⟨2, 0⟩ ⟨3, 0⟩, .add (.output 1) "z", .connect ⟨1, 0⟩ ⟨4, 0⟩,
    .add (.reshape row.shape) "r", .connect ⟨2, 0⟩ ⟨5, 0⟩, .setDescriptor ⟨5, 0⟩ row,
    .add (.permute swap) "s", .connect ⟨5, 0⟩ ⟨6, 0⟩, .setDescriptor ⟨6, 0⟩ column,
    .add (.reshape tall.shape) "v", .connect ⟨6, 0⟩ ⟨7, 0⟩, .setDescriptor ⟨7, 0⟩ tall,
    .add (.output 2) "w", .connect ⟨7, 0⟩ ⟨8, 0⟩]

def foldingNetwork : Network :=
  (load folding referenceId (referenceBackend .nearest).registry).1.toOption.get (by decide +kernel)

theorem optimize_preserves_execution_folding :
    let x : NamedTensor := ⟨"x", ⟨wide, ⟨.f32, #[1, 2, 3, 4, 5, 6]⟩, by decide⟩⟩
    let y : Memory := ⟨.f32, #[1, 2, 3, 4, 5, 6]⟩
    let stale (name : String) : NamedTensor := ⟨name, ⟨tall, ⟨.f32, .replicate 6 7⟩, by decide⟩⟩
    let outputs := [stale "w", stale "z", stale "y"]
    let optimized := optimize Rule.standard ⟨16, true⟩ false folding
    folding.Reachable ∧ (load folding referenceId (referenceBackend .nearest).registry).1 =
        .ok foldingNetwork ∧
      foldingNetwork.bindings.bindAll [x] outputs = .ok ([0], [2, 1, 0]) ∧
      optimized.graph.order = [0, 1, 3, 4, 7, 8] ∧
      ∃ report n', optimized.outcome = .ok report ∧
        (load optimized.graph referenceId (referenceBackend .nearest).registry).1 = .ok n' ∧
        (n'.execute [x] outputs).outcome = .ok () ∧
        (n'.execute [x] outputs).outputs = [y, ⟨.f32, #[1, 4, 2, 5, 3, 6]⟩, y] := by
  intro x y stale outputs optimized
  have hg : folding.Reachable := .changed .empty _
  have hload := eq_ok_get (show (load folding referenceId
    (referenceBackend .nearest).registry).1.toOption.isSome = true by decide +kernel)
  have hb : foldingNetwork.bindings.bindAll [x] outputs = .ok ([0], [2, 1, 0]) := by
    decide +kernel
  obtain ⟨report, n', hreport, hload', hcalls⟩ := optimize_preserves_execution ⟨16, true⟩ false hg
    (fun _ hr => hr : ∀ rule ∈ Rule.standard, rule ∈ Rule.standard) hload
  obtain ⟨-, hok, hsame⟩ := hcalls _ n' [x] outputs _ .refl .refl hb
  refine ⟨hg, hload, hb, by decide +kernel, report, n', hreport, hload', hok, hsame.trans ?_⟩
  decide +kernel

/-- Optimizing a valid graph by standard rules never fails. Every rewrite on the way leaves a
valid graph, the boundary stays as it is, and checking the graph after each rewrite makes no
difference. -/
theorem optimize_keeps_valid {g : Graph} {rules : List Rule} (options : OptimizerOptions)
    (statistics : Bool) (hg : g.Reachable) (hvalid : g.validate = .ok ())
    (hrules : ∀ rule ∈ rules, rule ∈ Rule.standard) :
    let optimized := optimize rules options statistics g
    (∃ report steps, optimized.outcome = .ok report ∧ Rule.Steps rules g steps optimized.graph ∧
      report.applied = steps.map (·.1) ∧ ∀ step ∈ steps, step.2.validate = .ok ()) ∧
    optimized.graph.validate = .ok () ∧ optimized.graph.bindingTable = g.bindingTable ∧
    ∀ validateEach, optimize rules { options with validateEach } statistics g = optimized := by
  intro optimized
  obtain ⟨table, hv⟩ := hg.sound.validate_eq_ok_iff.1 hvalid
  obtain ⟨report, p, hrun, hp, steps, hsteps, happlied, hall⟩ :=
    hv.exists_run hrules options statistics
  have hend : optimized = ⟨p.graph, p.log, .ok report⟩ := optimize_of_run hrun
  refine ⟨⟨report, steps, ?_⟩, ?_, ?_, fun b => ?_⟩
  · rw [hend]
    exact ⟨rfl, hsteps, happlied, fun step hs => (hall step hs).validate_eq_ok⟩
  · rw [hend]
    exact hp.validate_eq_ok
  · rw [hend, hp.bindings, hv.bindings]
  · exact optimize_validateEach (fun _ hh => hh.validate_eq_ok)
      (fun rule hr => Rule.standard_keeps_valid (hrules rule hr)) hv b

theorem optimize_keeps_valid_folding :
    let rules := [Rule.permuteAsReshape, Rule.inverseTransposes, Rule.consecutiveReshapes]
    let optimized := optimize rules ⟨0, false⟩ true folding
    folding.Reachable ∧ folding.validate = .ok () ∧ (∀ rule ∈ rules, rule ∈ Rule.standard) ∧
      (∃ report steps, optimized.outcome = .ok report ∧
        Rule.Steps rules folding steps optimized.graph ∧ steps.length = 4 ∧
        ∀ step ∈ steps, step.2.validate = .ok ()) ∧
      optimized.graph.validate = .ok () ∧
      optimized.graph.bindingTable = folding.bindingTable ∧
      optimize rules ⟨0, true⟩ true folding = optimized := by
  intro rules optimized
  have hg : folding.Reachable := .changed .empty _
  have hvalid : folding.validate = .ok () := by decide +kernel
  have hrules : ∀ rule ∈ rules, rule ∈ Rule.standard := by
    simp [rules, Rule.standard]
  have hcount : optimized.outcome.map (·.applied.length) = .ok 4 := by decide +kernel
  obtain ⟨⟨report, steps, hreport, hsteps, happlied, hall⟩, hend, htable, hsame⟩ :=
    optimize_keeps_valid ⟨0, false⟩ true hg hvalid hrules
  refine ⟨hg, hvalid, hrules, ⟨report, steps, hreport, hsteps, ?_, hall⟩, hend, htable,
    hsame true⟩
  rw [hreport, Except.map, happlied, List.length_map] at hcount
  exact Except.ok.inj hcount

end LayerGraph
