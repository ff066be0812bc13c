import LayerGraph.Proofs.Optimizing
import LayerGraph.Proofs.Shortening

/-!
# How many passes a run takes

A sweep offers each node after the nodes it reads, so one sweep is enough to fold all
reshapes of reshapes. A pass that leaves something to do has therefore taken away a permute
or a transpose, and a run takes at most one pass more than there are of them.
-/

set_option autoImplicit false

namespace LayerGraph

open Relation LayerGraph.Graph

variable {table : BindingTable} {g h : Graph} {id parent : NodeId} {o : OutputSlot}

namespace Rule

variable {rule : Rule} {rules : List Rule} {applied : Applied} {steps : List (Applied × Graph)}

theorem contains_of_applies (happlies : rule.applies g id = true) : g.contains id = true := by
  obtain ⟨node, hn, -⟩ := applies_iff.1 happlies
  exact contains_iff.2 ⟨node, hn⟩

/-- Looking at the nodes in order is looking at all nodes. -/
theorem not_applies_of_order (hg : g.Sound) (h : ∀ id ∈ g.order, rule.applies g id = false)
    (id : NodeId) : rule.applies g id = false := by
  rw [Bool.eq_false_iff]
  intro happlies
  have hid := (hg.order_isTopological.mem_iff id).2 (contains_of_applies happlies)
  rw [h id hid] at happlies
  cases happlies

theorem noneApplies_iff (hg : g.Sound) : anyApplies rules g = false ↔
    ∀ rule ∈ rules, ∀ id, rule.applies g id = false := by
  rw [anyApplies_eq_false_iff]
  constructor
  · exact fun h rule hrule => not_applies_of_order hg (h rule hrule)
  · exact fun h rule hrule id _ => h rule hrule id

theorem consecutiveReshapes_applies_iff :
    consecutiveReshapes.applies g id = true ↔ ∃ a, g.Stacked a id := by
  rw [applies_iff]
  constructor
  · rintro ⟨node, hn, hop, hfits⟩
    obtain ⟨parentNode, hp, hpop⟩ := (Option.any_eq_true _ _).1 hfits
    obtain ⟨p, hsource, hpn⟩ := parent?_eq_some_iff.1 hp
    exact ⟨p.node, (isReshape_iff hpn).2 hpop, (isReshape_iff hn).2 hop, p.index, hsource⟩
  · rintro ⟨a, hstacked⟩
    obtain ⟨f, hf, hop⟩ := hstacked.lower
    obtain ⟨f', hf', hpop⟩ := hstacked.upper
    obtain ⟨node, hn, rfl⟩ := frame?_eq_some_iff.1 hf
    obtain ⟨parentNode, hpn, rfl⟩ := frame?_eq_some_iff.1 hf'
    obtain ⟨i, hi⟩ := hstacked.reads
    exact ⟨node, hn, hop, (Option.any_eq_true _ _).2
      ⟨parentNode, parent?_eq_some_iff.2 ⟨_, hi, hpn⟩, hpop⟩⟩

/-- The rules after the first look at permutes and transposes only. -/
theorem reorders_of_admits (hrule : rule ∈ standard.tail) {operation : Operation}
    (h : rule.admits operation = true) : operation.reorders = true := by
  simp only [standard, List.tail_cons, List.mem_cons, List.not_mem_nil, or_false] at hrule
  rcases hrule with rfl | rfl | rfl | rfl <;>
    simp_all [inversePermutes, inverseTransposes, permuteAsReshape, transposeAsReshape,
      Operation.reorders]

theorem rewrite_of_apply (hrule : rule ∈ standard) (hv : g.Valid table)
    (happlies : rule.applies g id = true) (happly : rule.apply id g = .ok applied h) :
    g.Rewrite rule.name id applied h := by
  obtain ⟨applied', h', happly', hr⟩ := standard_rewrites hrule table g id hv happlies
  cases happly.symm.trans happly'
  exact hr

theorem reorderings_lt_of_apply (hrule : rule ∈ standard.tail) (hv : g.Valid table)
    (happlies : rule.applies g id = true) (happly : rule.apply id g = .ok applied h) :
    h.reorderings < g.reorderings := by
  have hr := rewrite_of_apply (List.mem_of_mem_tail hrule) hv happlies happly
  obtain ⟨node, hn, hadmits, -⟩ := applies_iff.1 happlies
  have hid : g.Reorders id :=
    ⟨node.frame, frame?_eq_some_iff.2 ⟨node, hn, rfl⟩, reorders_of_admits hrule hadmits⟩
  rcases hr.progress hv.sound with ⟨-, hlt⟩ | ⟨parent, o, hchild, -, -⟩
  · exact hlt
  · exact absurd hchild.lower hid.not_isReshape

theorem Steps.reorderings_le (hs : Steps rules g steps h)
    (hrules : ∀ rule ∈ rules, rule ∈ standard) (hv : g.Valid table) :
    h.reorderings ≤ g.reorderings := by
  induction hs with
  | nil => exact Nat.le_refl _
  | cons mem applies apply _ ih =>
    have hr := rewrite_of_apply (hrules _ mem) hv applies apply
    have hrest := ih (hr.valid hv)
    rcases hr.progress hv.sound with ⟨-, hlt⟩ | ⟨_, _, -, -, hs⟩
    · omega
    · have hle := hs.reorderings_le
      omega

theorem Steps.reorderings_lt (hs : Steps standard.tail g steps h) (hne : steps ≠ [])
    (hv : g.Valid table) : h.reorderings < g.reorderings := by
  cases hs with
  | nil => exact absurd rfl hne
  | cons mem applies apply rest =>
    have hlt := reorderings_lt_of_apply mem hv applies apply
    have hvalid := (rewrite_of_apply (List.mem_of_mem_tail mem) hv applies apply).valid hv
    have hle := rest.reorderings_le (fun _ => List.mem_of_mem_tail) hvalid
    omega

theorem Steps.valid (hs : Steps rules g steps h) (hrules : ∀ rule ∈ rules, rule ∈ standard)
    (hv : g.Valid table) : h.Valid table :=
  (hs.keeps (fun rule hr => standard_keeps_valid (hrules rule hr)) hv).1

end Rule

namespace Graph

variable {done rest l : List NodeId}

/-- A list in order stays so where edges are paths of the graph before. -/
theorem AfterProducers.of_paths (hl : g.AfterProducers l)
    (hpaths : ∀ a b, h.Edge a b → TransGen g.Edge a b) : h.AfterProducers l := by
  have hback : ∀ {a b}, TransGen g.Edge a b → ∀ before after, l = before ++ b :: after →
      a ∈ before := by
    intro a b hab
    induction hab with
    | single he =>
      intro before after heq
      exact hl before _ after heq _ (mem_producers_iff.2 he)
    | @tail c b _ he ih =>
      intro before after heq
      have hc := hl before _ after heq _ (mem_producers_iff.2 he)
      obtain ⟨first, second, rfl⟩ := List.append_of_mem hc
      exact List.mem_append_left _ (ih first (second ++ b :: after) (by simpa using heq))
  intro before k after heq p hp
  exact hback (hpaths p k (mem_producers_iff.1 hp)) before after heq

/-- Where a sweep for reshapes of reshapes stands: the nodes it is done with read none. -/
structure Folded (g : Graph) (done rest : List NodeId) : Prop where
  after_producers : g.AfterProducers (done ++ rest)
  listed : ∀ k, g.contains k = true → k ∈ done ++ rest
  folded : ∀ k ∈ done, ∀ a, ¬ g.Stacked a k

namespace Folded

theorem skip (hf : g.Folded done (id :: rest)) (hid : ∀ a, ¬ g.Stacked a id) :
    g.Folded (done ++ [id]) rest where
  after_producers := by simpa using hf.after_producers
  listed k hk := by simpa using hf.listed k hk
  folded k hk a hstacked := by
    rcases List.mem_append.1 hk with hk | hk
    · exact hf.folded k hk a hstacked
    · rw [List.mem_singleton.1 hk] at hstacked
      exact hid a hstacked

/-- What a reshape reads past has been offered before, so nothing new comes up. -/
theorem shorten (hf : g.Folded done (id :: rest)) (hchild : g.Stacked parent id)
    (ho : g.source? ⟨parent, 0⟩ = some o) (hs : g.Shortens h id o) :
    h.Folded (done ++ [id]) rest where
  after_producers := by
    obtain ⟨i, hi⟩ := hchild.reads
    have hpaths := hf.after_producers.of_paths fun _ _ he => hs.edge hi ho he
    simpa using hpaths
  listed k hk := by simpa using hf.listed k (hs.contains hk)
  folded k hk a hstacked := by
    have hparent : parent ∈ done :=
      hf.after_producers done id rest rfl parent (mem_producers_iff.2 hchild.edge)
    rcases hs.stacked hchild ho hstacked with ⟨hne, hstacked⟩ | ⟨hstacked, -⟩
    · rcases List.mem_append.1 hk with hk | hk
      · exact hf.folded k hk a hstacked
      · exact hne (List.mem_singleton.1 hk)
    · exact hf.folded parent hparent a hstacked

end Folded

theorem Sound.folded_order (hg : g.Sound) : g.Folded [] g.order where
  after_producers := hg.order_isTopological.after_producers
  listed k hk := (hg.order_isTopological.mem_iff k).2 hk
  folded k hk := by cases hk

end Graph

namespace Optimizing

variable {p q r : Progress} {validateEach statistics : Bool}

theorem folded_offer {u : Unit} {done rest : List NodeId} (hv : p.graph.Valid table)
    (hf : p.graph.Folded done (id :: rest))
    (h : offer validateEach Rule.consecutiveReshapes id p = .ok u q) :
    q.graph.Valid table ∧ q.graph.Folded (done ++ [id]) rest := by
  rcases offer_eq_ok h with ⟨happlies, rfl⟩ | ⟨applied, g, happlies, happly, rfl⟩
  · refine ⟨hv, hf.skip fun a ha => ?_⟩
    rw [Rule.consecutiveReshapes_applies_iff.2 ⟨a, ha⟩] at happlies
    cases happlies
  · have hr := Rule.rewrite_of_apply List.mem_cons_self hv happlies happly
    obtain ⟨a, ha⟩ := Rule.consecutiveReshapes_applies_iff.1 happlies
    refine ⟨hr.valid hv, ?_⟩
    rcases hr.progress hv.sound with ⟨hid, -⟩ | ⟨parent, o, hchild, ho, hs⟩
    · exact absurd ha.lower hid.not_isReshape
    · exact hf.shorten hchild ho hs

theorem folded_offers {u : Unit} {done l : List NodeId} (hv : p.graph.Valid table)
    (hf : p.graph.Folded done l)
    (h : l.forM (offer validateEach Rule.consecutiveReshapes) p = .ok u q) :
    q.graph.Folded (done ++ l) [] := by
  -- on the nodes still to be offered; each one offered joins those that are done
  induction l generalizing p done with
  | nil =>
    cases h
    simpa using hf
  | cons id rest ih =>
    obtain ⟨_, p', hoffer, hrest⟩ := bind_eq_ok_iff.1 h
    obtain ⟨hv', hf'⟩ := folded_offer hv hf hoffer
    simpa using ih hv' hf' hrest

/-- After a sweep no reshape reads a reshape. -/
theorem not_applies_of_sweep {u : Unit} (hv : p.graph.Valid table)
    (h : sweep validateEach Rule.consecutiveReshapes p = .ok u q) (id : NodeId) :
    Rule.consecutiveReshapes.applies q.graph id = false := by
  rw [sweep_eq] at h
  have hf := folded_offers hv hv.sound.folded_order h
  by_contra happlies
  rw [Bool.not_eq_false] at happlies
  obtain ⟨a, ha⟩ := Rule.consecutiveReshapes_applies_iff.1 happlies
  have hid := hf.listed id (Rule.contains_of_applies happlies)
  exact hf.folded id (by simpa using hid) a ha

/-- A pass that leaves something to do takes away a permute or a transpose. -/
theorem pass_standard {index : Nat} {report : PassReport} (hv : p.graph.Valid table)
    (h : pass validateEach Rule.standard index p = .ok report q) :
    q.graph.Valid table ∧ (report.stillMatching = true →
      q.graph.reorderings < p.graph.reorderings) := by
  obtain ⟨hsweeps, rfl⟩ := pass_eq_ok_iff.1 h
  obtain ⟨_, m, hsweep, hrest⟩ := bind_eq_ok_iff.1 hsweeps
  obtain ⟨_, hfirst, -, -⟩ := advances_sweep
    (List.mem_singleton_self Rule.consecutiveReshapes) hsweep
  obtain ⟨steps, hsteps, -, hidle⟩ : Advances Rule.standard.tail _ m q := advances_sweeps hrest
  have honly : ∀ rule ∈ [Rule.consecutiveReshapes], rule ∈ Rule.standard := by
    simp [Rule.standard]
  have hvm : m.graph.Valid table := hfirst.valid honly hv
  have hle : m.graph.reorderings ≤ p.graph.reorderings := hfirst.reorderings_le honly hv
  refine ⟨hsteps.valid (fun _ => List.mem_of_mem_tail) hvm, fun hmatch => ?_⟩
  -- without a step of the later rules the graph is the one the first sweep left
  by_cases hnil : steps = []
  · obtain ⟨rfl, hnone⟩ := hidle hnil
    have hfolded := not_applies_of_sweep (p := { p with applied := [] }) hv hsweep
    have hall : Rule.anyApplies Rule.standard q.graph = false := by
      rw [Rule.anyApplies_eq_false_iff]
      intro rule hrule
      rcases List.mem_cons.1 hrule with rfl | hrule
      · exact fun id _ => hfolded id
      · exact hnone rule hrule
    exact absurd (hmatch.symm.trans hall) Bool.true_eq_false.mp
  · have hlt := hsteps.reorderings_lt hnil hvm
    omega

/-- Within a budget above the number of permutes and transposes a run ends with nothing left
to do. -/
theorem passes_standard {budget index : Nat} {reports : List PassReport}
    (hv : p.graph.Valid table) (hbudget : p.graph.reorderings + 1 ≤ budget)
    (h : passes validateEach statistics Rule.standard budget index p = .ok reports r) :
    reports.length ≤ p.graph.reorderings + 1 ∧
      ∃ last, reports.getLast? = some last ∧ last.stillMatching = false := by
  induction budget generalizing index p reports with
  | zero => omega
  | succ budget ih =>
    obtain ⟨report, q, hpass, q', hgraph, h⟩ := passes_succ_eq_ok h
    obtain ⟨hvq, hfewer⟩ := pass_standard hv hpass
    rcases h with ⟨hdone, rfl, -⟩ | ⟨hmatch, rest, rfl, hrest⟩
    · exact ⟨by simp, report, rfl, hdone⟩
    · have hlt := hfewer hmatch
      rw [← hgraph] at hvq hlt
      obtain ⟨hlen, last, hlast, hdone⟩ := ih hvq (by omega) hrest
      refine ⟨by simp only [List.length_cons]; omega, last, ?_, hdone⟩
      rw [List.getLast?_cons, hlast]
      rfl

end Optimizing

/-- A run of the standard rules on a valid graph ends with nothing left to do when its budget
exceeds the number of permutes and transposes, and then takes at most one pass more than
there are of them. No rule applies to any node of the graph it leaves. -/
theorem optimize_converges {g : Graph} (options : OptimizerOptions) (statistics : Bool)
    (hg : g.Reachable) (hvalid : g.validate = .ok ())
    (hbudget : g.reorderings + 1 ≤ options.maxPasses) :
    ∃ report, (optimize Rule.standard options statistics g).outcome = .ok report ∧
      report.converged = true ∧ report.passes.length ≤ g.reorderings + 1 ∧
      ∀ rule ∈ Rule.standard, ∀ id,
        rule.applies (optimize Rule.standard options statistics g).graph id = false := by
  obtain ⟨table, hv⟩ := hg.sound.validate_eq_ok_iff.1 hvalid
  obtain ⟨report, p, hrun, hp, -⟩ := hv.exists_run (fun _ hr => hr) options statistics
  rw [optimize_of_run hrun]
  rcases Optimizing.run_eq_ok hrun with ⟨hnil, -⟩ | ⟨-, q, -, hpasses, hlasting⟩
  · cases hnil
  · obtain ⟨hlen, last, hlast, hdone⟩ :=
      Optimizing.passes_standard hv (by simpa using Or.inl hbudget) hpasses
    have hconverged : report.converged = true := by
      rw [hlasting, hlast, Option.any_some, hdone]
      rfl
    exact ⟨report, rfl, hconverged, hlen,
      (Rule.noneApplies_iff hp.sound).1 (Optimizing.run_converged hrun hconverged)⟩

theorem optimize_converges_folding :
    folding.Reachable ∧ folding.validate = .ok () ∧ folding.reorderings = 3 ∧
      ∃ report, (optimize Rule.standard ⟨4, false⟩ false folding).outcome = .ok report ∧
        report.converged = true ∧ report.passes.length ≤ 4 ∧
        ∀ rule ∈ Rule.standard, ∀ id,
          rule.applies (optimize Rule.standard ⟨4, false⟩ false folding).graph id = false := by
  have hg : folding.Reachable := .changed .empty _
  have hvalid : folding.validate = .ok () := by decide +kernel
  have hcount : folding.reorderings = 3 := by decide +kernel
  obtain ⟨report, hreport, hconverged, hlen, hidle⟩ :=
    optimize_converges ⟨4, false⟩ false hg hvalid (by rw [hcount])
  exact ⟨hg, hvalid, hcount, report, hreport, hconverged, by rwa [hcount] at hlen, hidle⟩

end LayerGraph
