import LayerGraph.Proofs.Accounting

/-!
# What a node stands for

A node that takes the place of others keeps their names, and those of the nodes whose place
they had taken before. A run that begins with no such histories ends with exactly those that
its records tell: what a node lists is what it stands for by the records, through however
many rewrites, and nothing is listed twice or by two nodes.
-/

set_option autoImplicit false

namespace LayerGraph

open Relation LayerGraph.Graph

/-- By some record the first node takes the place of the second. -/
def Supersedes (applied : List Applied) (n l : NodeLabel) : Prop :=
  ∃ a ∈ applied, a.replacement = some n.id ∧ l ∈ a.replaced

section Supersedes

variable {past : List Applied} {a : Applied} {n l : NodeLabel}

theorem mem_removedBy_of_supersedes (h : Supersedes past n l) : l ∈ removedBy past := by
  obtain ⟨a, ha, -, hl⟩ := h
  exact List.mem_flatMap.2 ⟨a, ha, hl⟩

theorem mem_removedBy_of_transGen (h : TransGen (Supersedes past) n l) : l ∈ removedBy past := by
  obtain ⟨_, -, hlast⟩ := TransGen.tail'_iff.1 h
  exact mem_removedBy_of_supersedes hlast

theorem supersedes_append_iff : Supersedes (past ++ [a]) n l ↔
    Supersedes past n l ∨ a.replacement = some n.id ∧ l ∈ a.replaced := by
  simp [Supersedes, or_and_right, exists_or]

/-- Where nothing that is replaced is the replacement of the last record, what others than the
replacement stand for is as before. -/
theorem transGen_append_iff (hentry : ∀ m ∈ removedBy (past ++ [a]), a.replacement ≠ some m.id) :
    TransGen (Supersedes (past ++ [a])) n l ↔ TransGen (Supersedes past) n l ∨
      a.replacement = some n.id ∧
        ∃ m ∈ a.replaced, l = m ∨ TransGen (Supersedes past) m l := by
  have hmono : ∀ {m l}, TransGen (Supersedes past) m l → TransGen (Supersedes (past ++ [a])) m l :=
    fun h => TransGen.mono (fun _ _ h => supersedes_append_iff.2 (.inl h)) _ _ h
  have hother : ∀ {m l}, a.replacement ≠ some m.id → TransGen (Supersedes (past ++ [a])) m l →
      TransGen (Supersedes past) m l := by
    intro m l hm hml
    induction hml with
    | single hlast =>
      exact .single ((supersedes_append_iff.1 hlast).resolve_right fun h => hm h.1)
    | tail hbefore hlast ih =>
      -- a node that something stands for is not the replacement
      have hb := hentry _ (mem_removedBy_of_transGen hbefore)
      exact ih.tail ((supersedes_append_iff.1 hlast).resolve_right fun h => hb h.1)
  constructor
  · intro h
    obtain ⟨m, hfirst, hrest⟩ := TransGen.head'_iff.1 h
    have hm := hentry m (mem_removedBy_of_supersedes hfirst)
    have hrest : l = m ∨ TransGen (Supersedes past) m l :=
      (reflTransGen_iff_eq_or_transGen.1 hrest).imp_right (hother hm)
    rcases supersedes_append_iff.1 hfirst with hold | ⟨hn, hmem⟩
    · rcases hrest with rfl | hrest
      · exact .inl (.single hold)
      · exact .inl (.head hold hrest)
    · exact .inr ⟨hn, m, hmem, hrest⟩
  · rintro (h | ⟨hn, m, hmem, hrest⟩)
    · exact hmono h
    · have hfirst : Supersedes (past ++ [a]) n m := supersedes_append_iff.2 (.inr ⟨hn, hmem⟩)
      rcases hrest with rfl | hrest
      · exact .single hfirst
      · exact .head hfirst (hmono hrest)

end Supersedes

namespace Graph

variable {g h : Graph} {past : List Applied} {a : Applied} {k k' : NodeId} {n l l' : NodeLabel}

theorem Sound.contains_of_related (hg : g.Sound) (hl : l ∈ g.relatedNodes k) :
    g.contains k = true := by
  cases hlookup : g.related.lookup k with
  | none => simp [relatedNodes, hlookup] at hl
  | some labels =>
    obtain ⟨before, after, hsplit, -⟩ := List.lookup_eq_some_iff.1 hlookup
    exact hg.related (k, labels) (by simp [hsplit])

theorem Records.mem_related_iff (hr : g.Records a h) (hk : h.contains k = true) :
    l ∈ h.relatedNodes k ↔ l ∈ g.relatedNodes k ∨
      a.replacement = some k ∧ ∃ m ∈ a.replaced, l = m ∨ l ∈ g.relatedNodes m.id := by
  rw [hr.related k hk, List.mem_append]
  split
  · simp [*, List.mem_flatMap]
  · simp [*]

/-- What the graph holds of the histories that the records of the past tell. -/
structure Traced (past : List Applied) (g : Graph) : Prop where
  lost : ∀ l ∈ removedBy past, l.id < g.nodes.size ∧ g.contains l.id = false
  known : ∀ a ∈ past, ∀ r, a.replacement = some r → r < g.nodes.size
  mem_related_iff : ∀ n, g.Holds n → ∀ l,
    l ∈ g.relatedNodes n.id ↔ TransGen (Supersedes past) n l
  distinct : ∀ k, ((g.relatedNodes k).map (·.id)).Nodup
  owner : ∀ k k' l l', l ∈ g.relatedNodes k → l' ∈ g.relatedNodes k' → l.id = l'.id → k = k'

namespace Traced

theorem empty (hrelated : g.related = []) : Traced [] g := by
  have hnone : ∀ k, g.relatedNodes k = [] := by simp [relatedNodes, hrelated]
  refine ⟨by simp [removedBy], by simp, fun n _ l => ?_, by simp [hnone], by simp [hnone]⟩
  rw [hnone]
  refine iff_of_false List.not_mem_nil fun h => ?_
  simpa [removedBy] using mem_removedBy_of_transGen h

variable (ht : Traced past g)

include ht

theorem mem_removedBy (hg : g.Sound) (hl : l ∈ g.relatedNodes k) : l ∈ removedBy past := by
  obtain ⟨n, hn, rfl⟩ := exists_holds (hg.contains_of_related hl)
  exact mem_removedBy_of_transGen ((ht.mem_related_iff n hn l).1 hl)

theorem gone (hg : g.Sound) (hl : l ∈ g.relatedNodes k) : g.contains l.id = false :=
  (ht.lost l (ht.mem_removedBy hg hl)).2

variable (hr : g.Records a h)

include hr

theorem lost_step : ∀ l ∈ removedBy (past ++ [a]),
    l.id < h.nodes.size ∧ h.contains l.id = false := by
  intro l hl
  rcases List.mem_append.1 (by simpa [removedBy] using hl : l ∈ removedBy past ++ a.replaced)
    with hl | hl
  · obtain ⟨hlt, hgone⟩ := ht.lost l hl
    exact ⟨Nat.lt_of_lt_of_le hlt hr.size_le, hr.gone hlt hgone⟩
  · exact ⟨Nat.lt_of_lt_of_le (hr.lt_size hl) hr.size_le, hr.lost l hl⟩

/-- The replacement of a record is there afterwards, so nothing has taken its place. -/
theorem not_replaced : ∀ m ∈ removedBy (past ++ [a]), a.replacement ≠ some m.id := by
  intro m hm heq
  have hgone := (ht.lost_step hr m hm).2
  rw [hr.replacement _ heq] at hgone
  cases hgone

theorem mem_related_iff_step (hg : g.Sound) (hn : h.Holds n) :
    l ∈ h.relatedNodes n.id ↔ TransGen (Supersedes (past ++ [a])) n l := by
  rw [hr.mem_related_iff hn.contains, transGen_append_iff (ht.not_replaced hr)]
  refine or_congr ?_ (and_congr_right fun _ => exists_congr fun m => and_congr_right fun hm => ?_)
  · rcases hr.added n hn with hold | ⟨hsize, -⟩
    · exact ht.mem_related_iff n hold l
    · -- a new node has no history, and no record knows of it
      refine iff_of_false (fun hl => ?_) fun h => ?_
      · exact Nat.ne_of_lt (lt_size_of_contains (hg.contains_of_related hl)) hsize
      · obtain ⟨_, ⟨a', ha', hreplacement, -⟩, -⟩ := TransGen.head'_iff.1 h
        exact Nat.ne_of_lt (ht.known a' ha' _ hreplacement) hsize
  · exact or_congr_right (ht.mem_related_iff m (hr.held m hm) l)

/-- What a node listed before is not what a replaced node brings. -/
theorem not_shared (hg : g.Sound) (hk : h.contains k = true) (hl : l ∈ g.relatedNodes k)
    {m : NodeLabel} (hm : m ∈ a.replaced) (hl' : l' = m ∨ l' ∈ g.relatedNodes m.id) :
    l.id ≠ l'.id := by
  intro heq
  rcases hl' with rfl | hl'
  · have hgone := ht.gone hg hl
    rw [heq, (hr.held _ hm).contains] at hgone
    cases hgone
  · have hlost := hr.lost m hm
    rw [← ht.owner k m.id l l' hl hl' heq, hk] at hlost
    cases hlost

theorem owner_step (hg : g.Sound) (hh : h.Sound) (hl : l ∈ h.relatedNodes k)
    (hl' : l' ∈ h.relatedNodes k') (heq : l.id = l'.id) : k = k' := by
  have hk := hh.contains_of_related hl
  have hk' := hh.contains_of_related hl'
  rcases (hr.mem_related_iff hk).1 hl with hl | ⟨hr₁, m, hm, hl⟩ <;>
    rcases (hr.mem_related_iff hk').1 hl' with hl' | ⟨hr₂, m', hm', hl'⟩
  · exact ht.owner k k' l l' hl hl' heq
  · exact absurd heq (ht.not_shared hr hg hk hl hm' hl')
  · exact absurd heq.symm (ht.not_shared hr hg hk' hl' hm hl)
  · exact Option.some.inj (hr₁.symm.trans hr₂)

/-- Each replaced node brings itself and what it listed. -/
theorem nodup_brought (hg : g.Sound) :
    ((a.replaced.flatMap fun l => l :: g.relatedNodes l.id).map (·.id)).Nodup := by
  have hlive : ∀ {m k l}, m ∈ a.replaced → l ∈ g.relatedNodes k → m.id ≠ l.id := by
    intro m k l hm hl heq
    have hgone := ht.gone hg hl
    rw [← heq, (hr.held m hm).contains] at hgone
    cases hgone
  rw [List.map_flatMap, List.nodup_flatMap]
  refine ⟨fun m hm => ?_, (List.pairwise_map.1 hr.distinct).imp_of_mem fun {m m'} hm hm' hne => ?_⟩
  · rw [List.map_cons, List.nodup_cons]
    refine ⟨fun hmem => ?_, ht.distinct _⟩
    obtain ⟨l, hl, heq⟩ := List.mem_map.1 hmem
    exact hlive hm hl heq.symm
  · rw [Function.onFun, List.map_cons, List.map_cons]
    intro i hi hi'
    rcases List.mem_cons.1 hi with rfl | hi <;> rcases List.mem_cons.1 hi' with heq | hi'
    · exact hne heq
    · obtain ⟨l, hl, heq⟩ := List.mem_map.1 hi'
      exact hlive hm hl heq.symm
    · obtain ⟨l, hl, rfl⟩ := List.mem_map.1 hi
      exact hlive hm' hl heq.symm
    · obtain ⟨l, hl, rfl⟩ := List.mem_map.1 hi
      obtain ⟨l', hl', heq⟩ := List.mem_map.1 hi'
      exact hne (ht.owner _ _ l l' hl hl' heq.symm)

theorem distinct_step (hg : g.Sound) (hh : h.Sound) (k : NodeId) :
    ((h.relatedNodes k).map (·.id)).Nodup := by
  cases hk : h.contains k with
  | false =>
    have hnone : h.relatedNodes k = [] := by
      refine List.eq_nil_iff_forall_not_mem.2 fun l hl => ?_
      rw [hh.contains_of_related hl] at hk
      cases hk
    simp [hnone]
  | true =>
    rw [hr.related k hk, List.map_append]
    refine List.nodup_append.2 ⟨ht.distinct k, ?_, ?_⟩
    · split
      · exact ht.nodup_brought hr hg
      · exact List.nodup_nil
    · simp only [List.mem_map]
      rintro _ ⟨l, hl, rfl⟩ _ ⟨l', hl', rfl⟩
      split at hl'
      · obtain ⟨m, hm, hl'⟩ := List.mem_flatMap.1 hl'
        exact ht.not_shared hr hg hk hl hm (List.mem_cons.1 hl')
      · cases hl'

theorem step (hg : g.Sound) (hh : h.Sound) : Traced (past ++ [a]) h where
  lost := ht.lost_step hr
  known := by
    intro a' ha' r hr'
    rcases List.mem_append.1 ha' with ha' | ha'
    · exact Nat.lt_of_lt_of_le (ht.known a' ha' r hr') hr.size_le
    · obtain rfl := List.mem_singleton.1 ha'
      exact lt_size_of_contains (hr.replacement r hr')
  mem_related_iff := fun _ hn _ => ht.mem_related_iff_step hr hg hn
  distinct := ht.distinct_step hr hg hh
  owner := fun _ _ _ _ => ht.owner_step hr hg hh

end Traced

/-- The histories follow the records through a whole run. -/
theorem Valid.traced {table : BindingTable} {rules : List Rule} {k : Graph}
    {steps : List (Applied × Graph)} (hv : g.Valid table) (hs : Rule.Steps rules g steps k)
    (hrules : ∀ rule ∈ rules, rule ∈ Rule.standard) (ht : Traced past g) :
    Traced (past ++ steps.map (·.1)) k := by
  -- on the steps still to come; each one done joins the past
  induction hs generalizing past with
  | nil => simpa using ht
  | cons mem applies apply _ ih =>
    have hr := Rule.rewrite_of_apply (hrules _ mem) hv applies apply
    have hnext := hr.valid hv
    simpa using ih hnext (ht.step (hr.records hv.sound) hv.sound hnext.sound)

end Graph

/-- Histories are complete. After optimizing a valid graph without histories by standard rules
a node lists exactly what it stands for by the records of the report, each node once and with
the name it had. All that is listed is gone, and no two nodes list the same. -/
theorem optimize_traces {g : Graph} {rules : List Rule} (options : OptimizerOptions)
    (statistics : Bool) (hg : g.Reachable) (hvalid : g.validate = .ok ())
    (hrelated : g.related = []) (hrules : ∀ rule ∈ rules, rule ∈ Rule.standard) :
    let optimized := optimize rules options statistics g
    ∃ report steps, optimized.outcome = .ok report ∧ Rule.Steps rules g steps optimized.graph ∧
      report.applied = steps.map (·.1) ∧
      (∀ n, optimized.graph.Holds n →
        (∀ l, l ∈ optimized.graph.relatedNodes n.id ↔
          TransGen (Supersedes report.applied) n l) ∧
        ((optimized.graph.relatedNodes n.id).map (·.id)).Nodup ∧
        ∀ l ∈ optimized.graph.relatedNodes n.id, optimized.graph.contains l.id = false ∧
          l ∈ removedBy report.applied ∧ ∃ s ∈ g :: steps.map (·.2), s.Holds l) ∧
      ∀ n n', optimized.graph.Holds n → optimized.graph.Holds n' → n.id ≠ n'.id →
        ((optimized.graph.relatedNodes n.id).map (·.id)).Disjoint
          ((optimized.graph.relatedNodes n'.id).map (·.id)) := by
  intro optimized
  obtain ⟨table, report, steps, hv, hp, hreport, hsteps, happlied⟩ :=
    hg.exists_steps hvalid hrules options statistics
  have hledger := hv.ledger hsteps hrules
  have ht : Traced report.applied optimized.graph := by
    rw [happlied]
    exact hv.traced hsteps hrules (.empty hrelated)
  refine ⟨report, steps, hreport, hsteps, happlied, fun n hn => ⟨ht.mem_related_iff n hn,
    ht.distinct n.id, fun l hl => ?_⟩, fun n n' _ _ hne i hi hi' => ?_⟩
  · have hremoved := ht.mem_removedBy hp.sound hl
    exact ⟨ht.gone hp.sound hl, hremoved, hledger.exists_holds_of_removed (happlied ▸ hremoved)⟩
  · obtain ⟨l, hl, rfl⟩ := List.mem_map.1 hi
    obtain ⟨l', hl', heq⟩ := List.mem_map.1 hi'
    exact hne (ht.owner _ _ l l' hl hl' heq.symm)

theorem optimize_traces_folding :
    let optimized := optimize Rule.standard ⟨16, true⟩ false folding
    let s : NodeLabel := ⟨6, "s"⟩
    let v : NodeLabel := ⟨7, "v"⟩
    folding.Reachable ∧ folding.validate = .ok () ∧ folding.related = [] ∧
      optimized.graph.Holds v ∧
      optimized.graph.relatedNodes v.id = [⟨9, "merged-s-into-reshape"⟩, s, ⟨5, "r"⟩] ∧
      ∃ report, optimized.outcome = .ok report ∧ TransGen (Supersedes report.applied) v s ∧
        s ∈ removedBy report.applied ∧ optimized.graph.contains s.id = false := by
  intro optimized s v
  have hg : folding.Reachable := .changed .empty _
  have hvalid : folding.validate = .ok () := by decide +kernel
  have hrelated : folding.related = [] := by decide +kernel
  have hname : (optimized.graph.node? v.id).map (·.name) = some v.name := by decide +kernel
  have hlist : optimized.graph.relatedNodes v.id =
      [⟨9, "merged-s-into-reshape"⟩, s, ⟨5, "r"⟩] := by decide +kernel
  have hv : optimized.graph.Holds v := by
    simpa [Holds, Option.map_eq_some_iff] using hname
  obtain ⟨report, steps, hreport, -, -, hall, -⟩ := optimize_traces ⟨16, true⟩ false hg hvalid
    hrelated (fun _ hr => hr : ∀ rule ∈ Rule.standard, rule ∈ Rule.standard)
  obtain ⟨hiff, -, hgone⟩ := hall v hv
  have hmem : s ∈ optimized.graph.relatedNodes v.id := by simp [hlist]
  obtain ⟨hlost, hremoved, -⟩ := hgone s hmem
  exact ⟨hg, hvalid, hrelated, hv, hlist, report, hreport, (hiff s).1 hmem, hremoved, hlost⟩

end LayerGraph
