import LayerGraph.Proofs.Convergence

/-!
# What a run that has converged leaves

When no standard rule applies, no reshape reads a reshape, no permute or transpose takes back
the one it reads, and none of them leaves all elements where they are. Running again then
makes one pass that does nothing.
-/

set_option autoImplicit false

namespace LayerGraph

open LayerGraph.Graph

namespace Permutation

variable (p : Permutation)

theorem permutesCancel_inverse :
    Rule.permutesCancel (.permute p) (.permute p.inverse) = true := by
  rw [Rule.permutesCancel, axesCancel_iff]
  exact ⟨p.length_inverse, fun j read h => getElem?_inverse_iff.2 h⟩

theorem transposesCancel_inverse :
    Rule.transposesCancel (.transpose p) (.transpose p.inverse) = true := by
  rw [Rule.transposesCancel, axesCancel_iff]
  exact ⟨p.length_inverse.symm, fun j read h => getElem?_inverse_iff.1 h⟩

end Permutation

namespace Graph

variable {table : BindingTable} {g : Graph} {id parent child : NodeId}
  {node parentNode childNode : Node}

structure Feeds (g : Graph) (parent child : NodeId) (parentNode childNode : Node) : Prop where
  parent_node : g.node? parent = some parentNode
  child_node : g.node? child = some childNode
  reads : ∃ i, g.source? ⟨child, 0⟩ = some ⟨parent, i⟩

structure Simplified (g : Graph) : Prop where
  reshapes : ∀ parent child parentNode childNode inner target,
    g.Feeds parent child parentNode childNode → parentNode.operation = .reshape inner →
      childNode.operation ≠ .reshape target
  permutes : ∀ parent child parentNode childNode p,
    g.Feeds parent child parentNode childNode → parentNode.operation = .permute p →
      childNode.operation = .permute p.inverse →
        g.inputDescriptor? ⟨parent, 0⟩ ≠ g.outputDescriptor? ⟨child, 0⟩
  transposes : ∀ parent child parentNode childNode p,
    g.Feeds parent child parentNode childNode → parentNode.operation = .transpose p →
      childNode.operation = .transpose p.inverse →
        g.inputDescriptor? ⟨parent, 0⟩ ≠ g.outputDescriptor? ⟨child, 0⟩
  layouts : ∀ id node q a, g.node? id = some node → node.operation.reading? = some q →
    g.inputDescriptor? ⟨id, 0⟩ = some a → isLayoutPreserving a.shape.dims q.axes = false

theorem Feeds.parent? (hf : g.Feeds parent child parentNode childNode) :
    g.parent? child = some parentNode := by
  obtain ⟨i, hi⟩ := hf.reads
  exact parent?_eq_some_iff.2 ⟨_, hi, hf.parent_node⟩

theorem Feeds.undoesParent (hf : g.Feeds parent child parentNode childNode)
    (hv : g.Valid table) {cancel : Operation → Operation → Bool}
    (hcancel : cancel parentNode.operation childNode.operation = true)
    (ha : childNode.operation.Arranges)
    (hd : g.inputDescriptor? ⟨parent, 0⟩ = g.outputDescriptor? ⟨child, 0⟩) :
    Rule.undoesParent cancel g child = true := by
  obtain ⟨i, hi⟩ := hf.reads
  obtain ⟨_, d, -, hd', -⟩ := hv.unary_takes hf.child_node ha hi
  refine Rule.undoesParent_iff.2 ⟨childNode, parentNode, d, hf.child_node, hf.parent?, hcancel,
    ?_, hd'⟩
  rw [hv.sound.node_id _ _ hf.parent_node, hd, hd']

theorem Valid.movesNothing (hv : g.Valid table) {q : Permutation} {a : Descriptor}
    (hn : g.node? id = some node) (hop : node.operation.reading? = some q)
    (ha : g.inputDescriptor? ⟨id, 0⟩ = some a)
    (hlayout : isLayoutPreserving a.shape.dims q.axes = true) :
    Rule.movesNothing g id q.axes = true := by
  have hin := ha
  rw [inputDescriptor?_eq] at hin
  obtain ⟨o, ho, -⟩ := Option.bind_eq_some_iff.1 hin
  obtain ⟨_, d, -, hd, -⟩ := hv.unary_takes hn (Operation.arranges_of_reading hop) ho
  rw [Rule.movesNothing_iff]
  exact ⟨node, a, d, hn, hd, by rwa [hv.sound.node_id _ _ hn], hlayout⟩

/-- A valid graph that no standard rule applies to is simplified. -/
theorem Valid.simplified (hv : g.Valid table)
    (hidle : ∀ rule ∈ Rule.standard, ∀ id, rule.applies g id = false) : g.Simplified := by
  have hno : ∀ rule ∈ Rule.standard, ∀ {id node}, g.node? id = some node →
      rule.admits node.operation = true → rule.fits g id = true → False := by
    intro rule hrule id node hn hadmits hfits
    have happlies := Rule.applies_iff.2 ⟨node, hn, hadmits, hfits⟩
    rw [hidle rule hrule id] at happlies
    cases happlies
  refine ⟨fun parent child m n inner target hf hm hn => ?_,
    fun parent child m n p hf hm hn hd => ?_, fun parent child m n p hf hm hn hd => ?_,
    fun id node q a hn hop ha => ?_⟩
  · refine hno Rule.consecutiveReshapes (by simp [Rule.standard]) hf.child_node ?_ ?_
    · rw [hn]
      rfl
    · exact (Option.any_eq_true _ _).2 ⟨m, hf.parent?, by rw [hm]; rfl⟩
  · refine hno Rule.inversePermutes (by simp [Rule.standard]) hf.child_node ?_
      (hf.undoesParent hv ?_ ?_ hd)
    · rw [hn]
      rfl
    · rw [hm, hn]
      exact p.permutesCancel_inverse
    · rw [hn]
      exact .inr (.inl rfl)
  · refine hno Rule.inverseTransposes (by simp [Rule.standard]) hf.child_node ?_
      (hf.undoesParent hv ?_ ?_ hd)
    · rw [hn]
      rfl
    · rw [hm, hn]
      exact p.transposesCancel_inverse
    · rw [hn]
      exact .inr (.inr rfl)
  · rw [Bool.eq_false_iff]
    intro hlayout
    have hmoves := hv.movesNothing hn hop ha hlayout
    cases hk : node.operation with
    | permute p =>
      rw [hk] at hop
      cases hop
      refine hno Rule.permuteAsReshape (by simp [Rule.standard]) hn (by rw [hk]; rfl) ?_
      simpa [Rule.permuteAsReshape, Rule.permuteMovesNothing, hn, hk] using hmoves
    | transpose p =>
      rw [hk] at hop
      cases hop
      refine hno Rule.transposeAsReshape (by simp [Rule.standard]) hn (by rw [hk]; rfl) ?_
      simpa [Rule.transposeAsReshape, Rule.transposeMovesNothing, hn, hk] using hmoves
    | _ =>
      rw [hk] at hop
      cases hop

end Graph

/-- Once a run of the standard rules has converged, the graph is simplified, and another run
makes one pass that does nothing. -/
theorem optimize_simplifies {g : Graph} {report : OptimizationReport}
    (options : OptimizerOptions) (statistics : Bool) (hg : g.Reachable)
    (hvalid : g.validate = .ok ())
    (hreport : (optimize Rule.standard options statistics g).outcome = .ok report)
    (hconverged : report.converged = true) :
    let h := (optimize Rule.standard options statistics g).graph
    h.Simplified ∧ ∀ again statistics',
      (optimize Rule.standard again statistics' h).outcome = .ok ⟨[⟨0, [], false⟩], true⟩ ∧
        (optimize Rule.standard again statistics' h).graph = h := by
  intro h
  obtain ⟨table, hv⟩ := hg.sound.validate_eq_ok_iff.1 hvalid
  obtain ⟨found, p, hrun, hp, -⟩ := hv.exists_run (fun _ hr => hr) options statistics
  have hend := optimize_of_run hrun
  obtain rfl : found = report := by
    rw [hend] at hreport
    exact Except.ok.inj hreport
  have hgraph : h = p.graph := congrArg Optimization.graph hend
  rw [hgraph]
  have hidle := (Rule.noneApplies_iff hp.sound).1 (Optimizing.run_converged hrun hconverged)
  refine ⟨hp.simplified hidle, fun again statistics' => ?_⟩
  obtain ⟨report', q, hrun', -, -⟩ := hp.exists_run (fun _ hr => hr) again statistics'
  obtain ⟨rfl, hsame⟩ := Optimizing.run_idle hrun' (by simp [Rule.standard]) hidle
  rw [optimize_of_run hrun']
  exact ⟨rfl, hsame⟩

theorem optimize_simplifies_folding :
    let h := (optimize Rule.standard ⟨2, true⟩ false folding).graph
    folding.Reachable ∧ folding.validate = .ok () ∧
      (optimize Rule.standard ⟨2, true⟩ false folding).outcome.map (·.converged) = .ok true ∧
      h.Simplified ∧
      (optimize Rule.standard ⟨0, false⟩ true h).outcome = .ok ⟨[⟨0, [], false⟩], true⟩ ∧
      (optimize Rule.standard ⟨0, false⟩ true h).graph = h := by
  intro h
  have hg : folding.Reachable := .changed .empty _
  have hvalid : folding.validate = .ok () := by decide +kernel
  have hconverged : (optimize Rule.standard ⟨2, true⟩ false folding).outcome.map (·.converged) =
      .ok true := by decide +kernel
  cases hreport : (optimize Rule.standard ⟨2, true⟩ false folding).outcome with
  | error err =>
    rw [hreport] at hconverged
    cases hconverged
  | ok report =>
    rw [hreport] at hconverged
    obtain ⟨hsimplified, hagain⟩ := optimize_simplifies ⟨2, true⟩ false hg hvalid hreport
      (Except.ok.inj hconverged)
    exact ⟨hg, hvalid, hconverged, hsimplified, hagain ⟨0, false⟩ true⟩

end LayerGraph
