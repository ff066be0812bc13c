import LayerGraph.Optimizer.Probe
import LayerGraph.Proofs.Convergence

/-!
# What a report says of its passes

A pass walks the nodes in topological order, and what it leaves to do is then looked up in the
same order. So a pass that rewrites nothing has found nothing and leaves nothing to do. With
this the passes of a run account for each other, whatever the graph and whatever the rules
match and do. Where the order misses no live node, a run that has converged leaves no node
to which a rule applies.
-/

set_option autoImplicit false

namespace LayerGraph

open LayerGraph.Graph

variable {P : Graph → Prop} {rules : List Rule}

namespace Rule

/-- A rule that leaves a graph in `P` when it is applied to one, where it applies. -/
def Stays (P : Graph → Prop) (rule : Rule) : Prop :=
  ∀ g id applied h, P g → rule.applies g id = true → rule.apply id g = .ok applied h → P h

theorem Steps.stays {g h : Graph} {steps : List (Applied × Graph)} (hs : Steps rules g steps h)
    (hrules : ∀ rule ∈ rules, rule.Stays P) (hg : P g) : P h := by
  induction hs with
  | nil => exact hg
  | cons mem applies apply _ ih => exact ih (hrules _ mem _ _ _ _ hg applies apply)

end Rule

/-- Reports of passes in a row, numbered from `index` on, of which a budget allows so many. -/
structure Successive (index budget : Nat) (reports : List PassReport) : Prop where
  length_le : reports.length ≤ budget
  numbered : reports.map (·.index) = List.range' index reports.length
  unfinished : ∀ pass ∈ reports.dropLast, pass.stillMatching = true
  busy : ∀ pass ∈ reports, pass.stillMatching = true → pass.applied ≠ []
  busy_later : ∀ pass ∈ reports.tail, pass.applied ≠ []
  spent : (∀ last, reports.getLast? = some last → last.stillMatching = true) →
    reports.length = budget

namespace Successive

variable {index budget : Nat} {report : PassReport} {rest : List PassReport}

theorem nil (index : Nat) : Successive index 0 [] := by
  constructor <;> simp

/-- A pass that leaves nothing to do is the last one. -/
theorem last (budget : Nat) (hindex : report.index = index)
    (hdone : report.stillMatching = false) : Successive index (budget + 1) [report] := by
  constructor <;> simp [hindex, hdone]

/-- A pass that leaves something to do is followed by passes that all do something. -/
theorem cons (hindex : report.index = index) (hmatch : report.stillMatching = true)
    (hbusy : report.applied ≠ []) (hrest : Successive (index + 1) budget rest)
    (hlater : ∀ pass ∈ rest, pass.applied ≠ []) :
    Successive index (budget + 1) (report :: rest) where
  length_le := Nat.succ_le_succ hrest.length_le
  numbered := by simp [hindex, hrest.numbered, List.range'_succ]
  unfinished pass hpass := by
    cases rest with
    | nil => simp at hpass
    | cons next rest =>
      rw [List.dropLast_cons_cons] at hpass
      rcases List.mem_cons.1 hpass with rfl | hpass
      · exact hmatch
      · exact hrest.unfinished pass hpass
  busy pass hpass := by
    rcases List.mem_cons.1 hpass with rfl | hpass
    · exact fun _ => hbusy
    · exact hrest.busy pass hpass
  busy_later := hlater
  spent hlast := by
    rw [List.length_cons, hrest.spent fun final hfinal => hlast final ?_]
    rw [List.getLast?_cons, hfinal, Option.getD_some]

end Successive

namespace Optimizing

variable {p q r : Progress} {validateEach statistics : Bool} {index budget : Nat}

/-- A pass that rewrites nothing found nothing to do, and leaves nothing. -/
theorem pass_idle {report : PassReport}
    (h : pass validateEach rules index p = .ok report q) (hidle : report.applied = []) :
    Rule.anyApplies rules p.graph = false ∧ report.stillMatching = false := by
  obtain ⟨steps, -, rfl, hnone⟩ := pass_steps h
  obtain ⟨hsame, horder⟩ := hnone (List.map_eq_nil_iff.1 hidle)
  have hnothing := Rule.anyApplies_eq_false_iff.2 horder
  exact ⟨hnothing, hsame.symm ▸ hnothing⟩

/-- Passes over a graph are successive, and each of them does something where the first has
something to do. -/
theorem passes_successive {reports : List PassReport}
    (h : passes validateEach statistics rules budget index p = .ok reports r) :
    Successive index budget reports ∧
      (Rule.anyApplies rules p.graph = true → ∀ pass ∈ reports, pass.applied ≠ []) := by
  induction budget generalizing index p reports with
  | zero =>
    cases h
    exact ⟨.nil index, by simp⟩
  | succ budget ih =>
    obtain ⟨report, q, hpass, q', hgraph, h⟩ := passes_succ_eq_ok h
    have hidle := pass_idle hpass
    have hfirst : Rule.anyApplies rules p.graph = true → report.applied ≠ [] := by
      intro hsome hnil
      rw [(hidle hnil).1] at hsome
      cases hsome
    obtain ⟨steps, -, hreport, -⟩ := pass_steps hpass
    have hindex : report.index = index := by rw [hreport]
    rcases h with ⟨hdone, rfl, -⟩ | ⟨hmatch, rest, rfl, hrest⟩
    · exact ⟨.last budget hindex hdone, by simpa using hfirst⟩
    · have hsome : Rule.anyApplies rules q'.graph = true := by
        rw [hgraph, ← hmatch, hreport]
      have hbusy : report.applied ≠ [] := by
        intro hnil
        rw [(hidle hnil).2] at hmatch
        cases hmatch
      obtain ⟨hsuccessive, hlater⟩ := ih hrest
      refine ⟨.cons hindex hmatch hbusy hsuccessive (hlater hsome), fun _ => ?_⟩
      exact List.forall_mem_cons.2 ⟨hbusy, hlater hsome⟩

end Optimizing

structure OptimizationReport.Accounted (report : OptimizationReport) (budget : Nat) : Prop
    extends Successive 0 budget report.passes where
  some_pass : 1 ≤ report.passes.length
  converged_iff : report.converged = true ↔
    ∃ last, report.passes.getLast? = some last ∧ last.stillMatching = false
  exhausted : report.converged = false → report.passes.length = budget

/-- Passes in a row under a budget that allows any are accounted for, when the last one tells
whether the run has converged. -/
theorem Successive.accounted {report : OptimizationReport} {budget : Nat} (hbudget : 1 ≤ budget)
    (h : Successive 0 budget report.passes)
    (hconverged : report.converged = report.passes.getLast?.any fun last => !last.stillMatching) :
    report.Accounted budget := by
  have hiff : report.converged = true ↔
      ∃ last, report.passes.getLast? = some last ∧ last.stillMatching = false := by
    rw [hconverged, Option.any_eq_true]
    simp
  refine ⟨h, ?_, hiff, fun hnot => h.spent fun last hlast => ?_⟩
  · -- without a pass the budget would count as spent
    by_contra hshort
    have hnil : report.passes = [] := List.length_eq_zero_iff.1 (by omega)
    have hspent := h.spent (by simp [hnil])
    omega
  · by_contra hdone
    rw [hiff.2 ⟨last, hlast, by simpa using hdone⟩] at hnot
    cases hnot

theorem exists_run_of_outcome {g : Graph} {options : OptimizerOptions} {statistics : Bool}
    {report : OptimizationReport} (h : (optimize rules options statistics g).outcome = .ok report) :
    ∃ p, Optimizing.run rules options statistics ⟨g, [], []⟩ = .ok report p ∧
      (optimize rules options statistics g).graph = p.graph := by
  cases hrun : Optimizing.run rules options statistics ⟨g, [], []⟩ with
  | ok found p =>
    rw [optimize_of_run hrun] at h ⊢
    exact ⟨p, by rw [Except.ok.inj h], rfl⟩
  | error err p =>
    rw [optimize, hrun] at h
    cases h

/-- Every report accounts for its passes. The graph and the rules are any at all: they need
not keep a graph valid, nor ever stop applying. The run has converged exactly when no rule
applies to a node in the order of the graph it leaves, which is any node whatever when the
rules leave graphs that changes can make. -/
theorem optimize_passes {g : Graph} {report : OptimizationReport} (options : OptimizerOptions)
    (statistics : Bool) (hne : rules ≠ [])
    (h : (optimize rules options statistics g).outcome = .ok report) :
    let left := (optimize rules options statistics g).graph
    report.Accounted (max options.maxPasses 1) ∧
      (report.converged = true ↔
        ∀ rule ∈ rules, ∀ id ∈ left.order, rule.applies left id = false) ∧
      (g.Reachable → (∀ rule ∈ rules, rule.Stays Reachable) →
        (report.converged = true ↔ ∀ rule ∈ rules, ∀ id, rule.applies left id = false)) := by
  obtain ⟨p, hrun, hgraph⟩ := exists_run_of_outcome h
  rw [hgraph]
  rcases Optimizing.run_eq_ok hrun with ⟨hnil, -⟩ | ⟨-, q, hq, hpasses, hconverged⟩
  · exact absurd hnil hne
  · obtain ⟨hsuccessive, -⟩ := Optimizing.passes_successive hpasses
    have haccounted := hsuccessive.accounted (Nat.le_max_right _ _) hconverged
    have hpass : report.passes ≠ [] := List.length_pos_iff.1 haccounted.some_pass
    obtain ⟨last, hlast⟩ := Option.isSome_iff_exists.1 (List.getLast?_isSome.2 hpass)
    have hleft : report.converged = true ↔ Rule.anyApplies rules p.graph = false := by
      rw [haccounted.converged_iff, hlast, ← hq, ← Optimizing.passes_last hpasses hlast]
      simp
    refine ⟨haccounted, hleft.trans Rule.anyApplies_eq_false_iff, fun hg hrules => ?_⟩
    obtain ⟨steps, hsteps, -⟩ := Optimizing.run_steps hrun
    exact hleft.trans (Rule.noneApplies_iff (hsteps.stays hrules hg).sound)

theorem optimize_passes_unplugged :
    let rules := [Rule.unplug, Rule.namedNode "u"]
    let optimized := optimize rules ⟨2, false⟩ false folding
    folding.Reachable ∧ rules ≠ [] ∧ (∀ rule ∈ rules, rule.Stays Reachable) ∧
      ∃ report, optimized.outcome = .ok report ∧ report.passes.length = 2 ∧
        report.passes.map (·.applied.map (·.rule)) =
          [["Unplug", "Unplug", "NamedNode"], ["NamedNode"]] ∧
        report.converged = false ∧
        ¬ ∀ rule ∈ rules, ∀ id, rule.applies optimized.graph id = false := by
  intro rules optimized
  have hg : folding.Reachable := .changed .empty _
  have hunplug : Rule.unplug.Stays Reachable := by
    intro g id applied h hg _ happly
    obtain ⟨_, next, hdisconnect, hreturn⟩ := Edit.bind_eq_ok_iff.1 happly
    cases hreturn
    have hafter : (GraphChange.disconnect ⟨id, 0⟩).after g = h := by
      rw [GraphChange.after, Edit.after, hdisconnect]
    exact hafter ▸ .change _ hg
  have hnamed : (Rule.namedNode "u").Stays Reachable := by
    intro g id applied h hg _ happly
    cases happly
    exact hg
  have hrules : ∀ rule ∈ rules, rule.Stays Reachable := by
    simpa [rules] using And.intro hunplug hnamed
  have hlists : optimized.outcome.map (fun report => (report.passes.map (·.applied.map (·.rule)),
      report.converged)) = .ok ([["Unplug", "Unplug", "NamedNode"], ["NamedNode"]], false) := by
    decide +kernel
  cases hreport : optimized.outcome with
  | error err =>
    rw [hreport] at hlists
    cases hlists
  | ok report =>
    rw [hreport, Except.map] at hlists
    obtain ⟨happlied, hnot⟩ := Prod.mk.inj (Except.ok.inj hlists)
    obtain ⟨haccounted, -, hconverged⟩ :=
      optimize_passes ⟨2, false⟩ false (List.cons_ne_nil _ _) hreport
    refine ⟨hg, List.cons_ne_nil _ _, hrules, report, rfl, haccounted.exhausted hnot, happlied,
      hnot, fun hidle => ?_⟩
    rw [(hconverged hg hrules).2 hidle] at hnot
    cases hnot

end LayerGraph
