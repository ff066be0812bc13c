import LayerGraph.Optimizer.Run

/-!
# Runs of the optimizer

A run that comes to its end is a sequence of steps, each of which applies a rule to a node
it applies to, and its report lists what the steps recorded. A pass without steps leaves
the graph alone and nothing that applies. Checking the graph after each step changes
nothing but that the run may stop there.
-/

set_option autoImplicit false

namespace LayerGraph

variable {P : Graph → Prop} {rules : List Rule}

namespace Rule

/-- A rule that succeeds wherever it applies to a graph in `P`, with a graph in `P`. -/
def Keeps (P : Graph → Prop) (rule : Rule) : Prop :=
  ∀ g id, P g → rule.applies g id = true → ∃ applied h, rule.apply id g = .ok applied h ∧ P h

/-- The way from one graph to another by applying rules where they apply, with what each
step recorded and the graph it left. -/
inductive Steps (rules : List Rule) : Graph → List (Applied × Graph) → Graph → Prop where
  | nil {g : Graph} : Steps rules g [] g
  | cons {g h k : Graph} {rule : Rule} {id : NodeId} {applied : Applied}
      {steps : List (Applied × Graph)} (mem : rule ∈ rules) (applies : rule.applies g id = true)
      (apply : rule.apply id g = .ok applied h) (rest : Steps rules h steps k) :
      Steps rules g ((applied, h) :: steps) k

namespace Steps

variable {g h k : Graph} {steps more : List (Applied × Graph)}

theorem append (hg : Steps rules g steps h) (hh : Steps rules h more k) :
    Steps rules g (steps ++ more) k := by
  induction hg with
  | nil => exact hh
  | cons mem applies apply _ ih => exact .cons mem applies apply (ih hh)

/-- What every rule keeps holds of every graph on the way. -/
theorem keeps (hs : Steps rules g steps h) (hrules : ∀ rule ∈ rules, rule.Keeps P) (hg : P g) :
    P h ∧ ∀ step ∈ steps, P step.2 := by
  induction hs with
  | nil => exact ⟨hg, by simp⟩
  | @cons g h k rule id applied steps mem applies apply rest ih =>
    obtain ⟨_, _, happly, hh⟩ := hrules _ mem _ _ hg applies
    cases apply.symm.trans happly
    obtain ⟨hk, hsteps⟩ := ih hh
    exact ⟨hk, by simpa [hh] using hsteps⟩

theorem eq_nil (hs : Steps rules g steps h)
    (hidle : ∀ rule ∈ rules, ∀ id, rule.applies g id = false) : steps = [] := by
  cases hs with
  | nil => rfl
  | cons mem applies _ _ =>
    rw [hidle _ mem] at applies
    cases applies

end Steps

theorem anyApplies_eq_false_iff {g : Graph} : anyApplies rules g = false ↔
    ∀ rule ∈ rules, ∀ id ∈ g.order, rule.applies g id = false := by
  simp [anyApplies]

end Rule

namespace Optimizing

variable {α β : Type} {p q r : Progress} {validateEach statistics : Bool} {rule : Rule}
  {id : NodeId}

theorem bind_ok {run : Optimizing α} {next : α → Optimizing β} {a : α} (h : run p = .ok a q) :
    (run >>= next) p = next a q := by
  change EStateM.bind run next p = next a q
  rw [EStateM.bind, h]

theorem bind_eq_ok_iff {run : Optimizing α} {next : α → Optimizing β} {b : β} :
    (run >>= next) p = .ok b r ↔ ∃ a q, run p = .ok a q ∧ next a q = .ok b r := by
  cases h : run p with
  | ok a q =>
    rw [bind_ok h]
    refine ⟨fun hb => ⟨a, q, rfl, hb⟩, ?_⟩
    rintro ⟨_, _, hrun, hb⟩
    cases hrun
    exact hb
  | error err q =>
    change EStateM.bind run next p = .ok b r ↔ _
    simp [EStateM.bind, h]

section Success

/-- From a state whose graph is in `P` the run succeeds, and ends in such a state. -/
def Keeps (P : Graph → Prop) (run : Optimizing α) : Prop :=
  ∀ p, P p.graph → ∃ a q, run p = .ok a q ∧ P q.graph

theorem keeps_pure (a : α) : Keeps P (pure a) := fun p hp => ⟨a, p, rfl, hp⟩

theorem keeps_get : Keeps P get := fun p hp => ⟨p, p, rfl, hp⟩

theorem Keeps.bind {run : Optimizing α} {next : α → Optimizing β} (hrun : Keeps P run)
    (hnext : ∀ a, Keeps P (next a)) : Keeps P (run >>= next) := by
  intro p hp
  obtain ⟨a, q, hq, hpq⟩ := hrun p hp
  obtain ⟨b, r, hr, hpr⟩ := hnext a q hpq
  exact ⟨b, r, (bind_ok hq).trans hr, hpr⟩

theorem keeps_modify {change : Progress → Progress} (h : ∀ p, (change p).graph = p.graph) :
    Keeps P (modify change) := fun p hp => ⟨(), change p, rfl, (h p).symm ▸ hp⟩

theorem keeps_record (entry : LogEntry) : Keeps P (record entry) := keeps_modify fun _ => rfl

theorem keeps_edit {e : Edit α} (h : ∀ g, P g → ∃ a next, e g = .ok a next ∧ P next) :
    Keeps P (edit e) := by
  intro p hp
  obtain ⟨a, next, he, hnext⟩ := h p.graph hp
  exact ⟨a, { p with graph := next }, by simp [edit, he], hnext⟩

theorem keeps_ite {c : Prop} [Decidable c] {run other : Optimizing α} (hrun : Keeps P run)
    (hother : Keeps P other) : Keeps P (if c then run else other) := by
  split
  · exact hrun
  · exact hother

theorem keeps_forM {l : List β} {run : β → Optimizing Unit} (h : ∀ x ∈ l, Keeps P (run x)) :
    Keeps P (l.forM run) := by
  induction l with
  | nil => exact keeps_pure ()
  | cons x rest ih =>
    exact (h x List.mem_cons_self).bind fun _ => ih fun y hy => h y (List.mem_cons_of_mem _ hy)

variable (hvalid : ∀ g, P g → g.validate = .ok ())

include hvalid

theorem keeps_validate : Keeps P (edit (Edit.check Graph.validate)) :=
  keeps_edit fun g hg => ⟨(), g, by simp [Edit.check, hvalid g hg], hg⟩

/-- A rule is applied only where it applies, to the graph as it then is. -/
theorem keeps_offer (validateEach : Bool) (hrule : rule.Keeps P) (id : NodeId) :
    Keeps P (offer validateEach rule id) := by
  intro p hp
  have hget : (get : Optimizing Progress) p = .ok p p := rfl
  rw [offer, bind_ok hget]
  cases happlies : rule.applies p.graph id with
  | false => exact keeps_pure () p hp
  | true =>
    obtain ⟨applied, h, happly, hh⟩ := hrule p.graph id hp happlies
    have hedit : edit (rule.apply id) p = .ok applied { p with graph := h } := by
      simp [edit, happly]
    have hnote : Keeps P (modify fun p => { p with applied := p.applied ++ [applied] }) :=
      keeps_modify fun _ => rfl
    obtain ⟨a, q, hq, hpq⟩ := ((keeps_record applied.logEntry).bind fun _ =>
      keeps_ite (c := validateEach = true) ((keeps_validate hvalid).bind fun _ => hnote) hnote)
        { p with graph := h } hh
    exact ⟨a, q, (bind_ok hedit).trans hq, hpq⟩

theorem keeps_sweep (validateEach : Bool) (hrule : rule.Keeps P) :
    Keeps P (sweep validateEach rule) :=
  keeps_get.bind fun _ => keeps_forM fun id _ => keeps_offer hvalid validateEach hrule id

variable (hrules : ∀ rule ∈ rules, rule.Keeps P)

include hrules

theorem keeps_pass (validateEach : Bool) (index : Nat) :
    Keeps P (pass validateEach rules index) := by
  have hsweeps : Keeps P (rules.forM (sweep validateEach)) :=
    keeps_forM fun rule hr => keeps_sweep hvalid validateEach (hrules rule hr)
  refine Keeps.bind (keeps_modify ?_) fun _ => hsweeps.bind fun _ => keeps_get.bind fun _ =>
    keeps_pure _
  exact fun _ => rfl

theorem keeps_passes (validateEach statistics : Bool) (budget index : Nat) :
    Keeps P (passes validateEach statistics rules budget index) := by
  induction budget generalizing index with
  | zero => exact keeps_pure []
  | succ budget ih =>
    refine (keeps_pass hvalid hrules validateEach index).bind fun report => ?_
    have hrest : Keeps P (if report.stillMatching then do
          let rest ← passes validateEach statistics rules budget (index + 1)
          return report :: rest
        else return [report]) :=
      keeps_ite ((ih (index + 1)).bind fun _ => keeps_pure _) (keeps_pure _)
    exact keeps_ite (keeps_get.bind fun _ => (keeps_record _).bind fun _ => hrest) hrest

theorem keeps_run (options : OptimizerOptions) (statistics : Bool) :
    Keeps P (run rules options statistics) := by
  refine (keeps_validate hvalid).bind fun _ => keeps_ite (keeps_pure _) ?_
  refine (keeps_passes hvalid hrules _ statistics _ 0).bind fun reports => ?_
  exact keeps_ite ((keeps_record _).bind fun _ => (keeps_record _).bind fun _ => keeps_pure _)
    ((keeps_record _).bind fun _ => keeps_pure _)

end Success

section Agreement

/-- Where one run succeeds the other one does too, in the same way. -/
def Agrees (run other : Optimizing α) : Prop := ∀ p a q, run p = .ok a q → other p = .ok a q

theorem Agrees.refl (run : Optimizing α) : Agrees run run := fun _ _ _ h => h

theorem Agrees.bind {run other : Optimizing α} {next next' : α → Optimizing β}
    (h : Agrees run other) (hnext : ∀ a, Agrees (next a) (next' a)) :
    Agrees (run >>= next) (other >>= next') := by
  intro p b r hb
  obtain ⟨a, q, hq, hr⟩ := bind_eq_ok_iff.1 hb
  exact bind_eq_ok_iff.2 ⟨a, q, h p a q hq, hnext a q b r hr⟩

theorem Agrees.ite {c : Prop} [Decidable c] {run other run' other' : Optimizing α}
    (h : Agrees run other) (h' : Agrees run' other') :
    Agrees (if c then run else run') (if c then other else other') := by
  split
  · exact h
  · exact h'

theorem Agrees.forM {run other : β → Optimizing Unit} (h : ∀ x, Agrees (run x) (other x))
    (l : List β) : Agrees (l.forM run) (l.forM other) := by
  induction l with
  | nil => exact .refl _
  | cons x rest ih => exact (h x).bind fun _ => ih

/-- A check that succeeds leaves no trace. -/
theorem agrees_check (next : Optimizing α) :
    Agrees (edit (Edit.check Graph.validate) >>= fun _ => next) next := by
  intro p a q h
  obtain ⟨_, p', hp, h⟩ := bind_eq_ok_iff.1 h
  cases hvalid : p.graph.validate with
  | error err => simp [edit, Edit.check, hvalid] at hp
  | ok _ =>
    simp only [edit, Edit.check, hvalid, EStateM.Result.ok.injEq] at hp
    rwa [← hp.2] at h

theorem agrees_offer (validateEach : Bool) (rule : Rule) (id : NodeId) :
    Agrees (offer validateEach rule id) (offer false rule id) := by
  refine (Agrees.refl _).bind fun _ => Agrees.ite ((Agrees.refl _).bind fun _ =>
    (Agrees.refl _).bind fun _ => ?_) (.refl _)
  cases validateEach with
  | false => exact .refl _
  | true => exact agrees_check _

theorem agrees_passes (validateEach statistics : Bool) (rules : List Rule) (budget index : Nat) :
    Agrees (passes validateEach statistics rules budget index)
      (passes false statistics rules budget index) := by
  induction budget generalizing index with
  | zero => exact .refl _
  | succ budget ih =>
    have hpass : Agrees (pass validateEach rules index) (pass false rules index) :=
      (Agrees.refl _).bind fun _ => (Agrees.forM (fun rule => (Agrees.refl _).bind fun _ =>
        Agrees.forM (agrees_offer validateEach rule) _) rules).bind fun _ => .refl _
    refine hpass.bind fun report => ?_
    have hrest : Agrees (if report.stillMatching then do
          let rest ← passes validateEach statistics rules budget (index + 1)
          return report :: rest
        else return [report]) (if report.stillMatching then do
          let rest ← passes false statistics rules budget (index + 1)
          return report :: rest
        else return [report]) := Agrees.ite ((ih (index + 1)).bind fun _ => .refl _) (.refl _)
    exact Agrees.ite ((Agrees.refl _).bind fun _ => (Agrees.refl _).bind fun _ => hrest) hrest

theorem agrees_run (rules : List Rule) (options : OptimizerOptions) (statistics : Bool) :
    Agrees (run rules options statistics)
      (run rules { options with validateEach := false } statistics) :=
  (Agrees.refl _).bind fun _ => Agrees.ite (.refl _)
    ((agrees_passes _ _ _ _ _).bind fun _ => .refl _)

end Agreement

section Accounting

/-- `q` is reached from `p` by steps that it records, and without a step it is `p` with
`idle` true of its graph. -/
def Advances (rules : List Rule) (idle : Graph → Prop) (p q : Progress) : Prop :=
  ∃ steps, Rule.Steps rules p.graph steps q.graph ∧ q.applied = p.applied ++ steps.map (·.1) ∧
    (steps = [] → q = p ∧ idle p.graph)

theorem Advances.trans {idle idle' : Graph → Prop} (hp : Advances rules idle p q)
    (hq : Advances rules idle' q r) : Advances rules (fun g => idle g ∧ idle' g) p r := by
  obtain ⟨steps, hsteps, happlied, hidle⟩ := hp
  obtain ⟨more, hmore, happlied', hidle'⟩ := hq
  refine ⟨steps ++ more, hsteps.append hmore, by simp [happlied', happlied], fun hnil => ?_⟩
  obtain ⟨hs, hm⟩ := List.append_eq_nil_iff.1 hnil
  obtain ⟨rfl, hi⟩ := hidle hs
  obtain ⟨rfl, hi'⟩ := hidle' hm
  exact ⟨rfl, hi, hi'⟩

theorem advances_forM {idle : β → Graph → Prop} {run : β → Optimizing Unit} {l : List β}
    (hrun : ∀ x ∈ l, ∀ p u q, run x p = .ok u q → Advances rules (idle x) p q) {u : Unit}
    (h : l.forM run p = .ok u q) : Advances rules (fun g => ∀ x ∈ l, idle x g) p q := by
  induction l generalizing p with
  | nil =>
    cases h
    exact ⟨[], .nil, by simp, fun _ => ⟨rfl, by simp⟩⟩
  | cons x rest ih =>
    obtain ⟨_, p', hx, hrest⟩ := bind_eq_ok_iff.1 h
    have hfirst := hrun x List.mem_cons_self p _ p' hx
    have hlast := ih (fun y hy => hrun y (List.mem_cons_of_mem _ hy)) hrest
    simpa using hfirst.trans hlast

/-- An offer is declined, or it is a step. -/
theorem offer_eq_ok {u : Unit} (h : offer validateEach rule id p = .ok u q) :
    (rule.applies p.graph id = false ∧ q = p) ∨ ∃ applied g, rule.applies p.graph id = true ∧
      rule.apply id p.graph = .ok applied g ∧
      q = ⟨g, p.applied ++ [applied], p.log ++ [applied.logEntry]⟩ := by
  have hget : (get : Optimizing Progress) p = .ok p p := rfl
  replace h := agrees_offer validateEach rule id p u q h
  rw [offer, bind_ok hget] at h
  cases happlies : rule.applies p.graph id with
  | false =>
    rw [happlies] at h
    cases h
    exact .inl ⟨rfl, rfl⟩
  | true =>
    rw [happlies, if_pos rfl] at h
    obtain ⟨applied, p', hp, h⟩ := bind_eq_ok_iff.1 h
    cases happly : rule.apply id p.graph with
    | error err g => simp [edit, happly] at hp
    | ok value g =>
      simp only [edit, happly, EStateM.Result.ok.injEq] at hp
      obtain ⟨rfl, rfl⟩ := hp
      cases h
      exact .inr ⟨value, g, rfl, rfl, rfl⟩

theorem advances_offer {u : Unit} (hrule : rule ∈ rules)
    (h : offer validateEach rule id p = .ok u q) :
    Advances rules (fun g => rule.applies g id = false) p q := by
  rcases offer_eq_ok h with ⟨happlies, rfl⟩ | ⟨applied, g, happlies, happly, rfl⟩
  · exact ⟨[], .nil, by simp, fun _ => ⟨rfl, happlies⟩⟩
  · exact ⟨[(applied, g)], .cons hrule happlies happly .nil, rfl, by simp⟩

theorem sweep_eq (validateEach : Bool) (rule : Rule) (p : Progress) :
    sweep validateEach rule p = p.graph.order.forM (offer validateEach rule) p := rfl

theorem advances_sweep {u : Unit} (hrule : rule ∈ rules)
    (h : sweep validateEach rule p = .ok u q) :
    Advances rules (fun g => ∀ id ∈ g.order, rule.applies g id = false) p q := by
  rw [sweep_eq] at h
  have hlisted : Advances rules (fun g => ∀ id ∈ p.graph.order, rule.applies g id = false) p q :=
    advances_forM (fun _ _ _ _ _ hoffer => advances_offer hrule hoffer) h
  exact hlisted

theorem advances_sweeps {u : Unit} (h : rules.forM (sweep validateEach) p = .ok u q) :
    Advances rules (fun g => ∀ rule ∈ rules, ∀ id ∈ g.order, rule.applies g id = false) p q :=
  advances_forM (fun _ hrule _ _ _ hsweep => advances_sweep hrule hsweep) h

theorem pass_eq_ok_iff {index : Nat} {report : PassReport} :
    pass validateEach rules index p = .ok report q ↔
      rules.forM (sweep validateEach) { p with applied := [] } = .ok () q ∧
        report = ⟨index, q.applied, Rule.anyApplies rules q.graph⟩ := by
  have hstart : (modify fun p : Progress => { p with applied := [] } : Optimizing Unit) p =
      .ok () { p with applied := [] } := rfl
  rw [pass, bind_ok hstart, bind_eq_ok_iff]
  constructor
  · rintro ⟨_, q', hsweeps, hend⟩
    cases hend
    exact ⟨hsweeps, rfl⟩
  · rintro ⟨hsweeps, rfl⟩
    exact ⟨(), q, hsweeps, rfl⟩

/-- A pass is a number of steps, and with none of them no rule applies to a node in order. -/
theorem pass_steps {index : Nat} {report : PassReport}
    (h : pass validateEach rules index p = .ok report q) :
    ∃ steps, Rule.Steps rules p.graph steps q.graph ∧
      report = ⟨index, steps.map (·.1), Rule.anyApplies rules q.graph⟩ ∧
      (steps = [] → q.graph = p.graph ∧
        ∀ rule ∈ rules, ∀ id ∈ p.graph.order, rule.applies p.graph id = false) := by
  obtain ⟨hsweeps, rfl⟩ := pass_eq_ok_iff.1 h
  obtain ⟨steps, hsteps, happlied, hidle⟩ := advances_sweeps hsweeps
  refine ⟨steps, hsteps, by rw [happlied]; rfl, fun hnil => ?_⟩
  obtain ⟨rfl, hnone⟩ := hidle hnil
  exact ⟨rfl, hnone⟩

/-- Passes go on as long as some rule applies. -/
theorem passes_succ_eq_ok {budget index : Nat} {reports : List PassReport}
    (h : passes validateEach statistics rules (budget + 1) index p = .ok reports r) :
    ∃ report q, pass validateEach rules index p = .ok report q ∧ ∃ q', q'.graph = q.graph ∧
      (report.stillMatching = false ∧ reports = [report] ∧ r.graph = q.graph ∨
        report.stillMatching = true ∧ ∃ rest, reports = report :: rest ∧
          passes validateEach statistics rules budget (index + 1) q' = .ok rest r) := by
  obtain ⟨report, q, hpass, h⟩ := bind_eq_ok_iff.1 h
  refine ⟨report, q, hpass, ?_⟩
  obtain ⟨q', hgraph, h⟩ : ∃ q', q'.graph = q.graph ∧ (if report.stillMatching then do
        let rest ← passes validateEach statistics rules budget (index + 1)
        return report :: rest
      else return [report] : Optimizing (List PassReport)) q' = .ok reports r := by
    cases statistics with
    | false => exact ⟨q, rfl, h⟩
    | true => exact ⟨{ q with log := q.log ++ [passEntry report q.graph.live] }, rfl, h⟩
  refine ⟨q', hgraph, ?_⟩
  cases hmatch : report.stillMatching with
  | false =>
    rw [hmatch] at h
    cases h
    exact .inl ⟨rfl, rfl, hgraph⟩
  | true =>
    rw [hmatch, if_pos rfl] at h
    obtain ⟨rest, r', hrest, h⟩ := bind_eq_ok_iff.1 h
    cases h
    exact .inr ⟨rfl, rest, rfl, hrest⟩

theorem passes_steps {budget index : Nat} {reports : List PassReport}
    (h : passes validateEach statistics rules budget index p = .ok reports r) :
    ∃ steps, Rule.Steps rules p.graph steps r.graph ∧
      reports.flatMap (·.applied) = steps.map (·.1) := by
  induction budget generalizing index p reports with
  | zero =>
    cases h
    exact ⟨[], .nil, rfl⟩
  | succ budget ih =>
    obtain ⟨report, q, hpass, q', hgraph, h⟩ := passes_succ_eq_ok h
    obtain ⟨steps, hsteps, rfl, -⟩ := pass_steps hpass
    rcases h with ⟨-, rfl, hr⟩ | ⟨-, rest, rfl, hrest⟩
    · exact ⟨steps, hr ▸ hsteps, by simp⟩
    · obtain ⟨more, hmore, hrecorded⟩ := ih hrest
      exact ⟨steps ++ more, hsteps.append (hgraph ▸ hmore), by simp [hrecorded]⟩

theorem passes_eq_ok_nil {budget index : Nat}
    (h : passes validateEach statistics rules budget index p = .ok [] r) : r = p := by
  cases budget with
  | zero =>
    cases h
    rfl
  | succ budget =>
    obtain ⟨_, _, -, _, -, ⟨-, hnil, -⟩ | ⟨-, _, hnil, -⟩⟩ := passes_succ_eq_ok h
    · cases hnil
    · cases hnil

/-- The last pass tells whether some rule applies to the graph in the end. -/
theorem passes_last {budget index : Nat} {reports : List PassReport} {last : PassReport}
    (h : passes validateEach statistics rules budget index p = .ok reports r)
    (hlast : reports.getLast? = some last) :
    last.stillMatching = Rule.anyApplies rules r.graph := by
  induction budget generalizing index p reports with
  | zero =>
    cases h
    cases hlast
  | succ budget ih =>
    obtain ⟨report, q, hpass, q', hgraph, h⟩ := passes_succ_eq_ok h
    obtain ⟨steps, -, rfl, -⟩ := pass_steps hpass
    rcases h with ⟨-, rfl, hr⟩ | ⟨-, rest, rfl, hrest⟩
    · rw [List.getLast?_singleton, Option.some.injEq] at hlast
      rw [← hlast, hr]
    · rw [List.getLast?_cons, Option.some.injEq] at hlast
      cases hend : rest.getLast? with
      | none =>
        rw [List.getLast?_eq_none_iff.1 hend] at hrest
        rw [← hlast, hend, passes_eq_ok_nil hrest, hgraph]
        rfl
      | some final =>
        obtain rfl : final = last := by rwa [hend] at hlast
        exact ih hrest hend

/-- A run on rules that are none reports no passes, any other one the passes it made. -/
theorem run_eq_ok {options : OptimizerOptions} {report : OptimizationReport}
    (h : run rules options statistics p = .ok report q) :
    (rules = [] ∧ report = ⟨[], true⟩ ∧ q.graph = p.graph) ∨
      rules ≠ [] ∧ ∃ q', q'.graph = q.graph ∧
        passes options.validateEach statistics rules (max options.maxPasses 1) 0 p =
          .ok report.passes q' ∧
        report.converged = report.passes.getLast?.any fun last => !last.stillMatching := by
  replace h := agrees_check _ p report q h
  cases rules with
  | nil =>
    cases h
    exact .inl ⟨rfl, rfl, rfl⟩
  | cons rule rest =>
    refine .inr ⟨List.cons_ne_nil _ _, ?_⟩
    obtain ⟨reports, q', hpasses, h⟩ := bind_eq_ok_iff.1 h
    cases hlast : reports.getLast?.any fun last => !last.stillMatching <;>
    · rw [hlast] at h
      cases h
      exact ⟨q', rfl, hpasses, hlast.symm⟩

theorem run_steps {options : OptimizerOptions} {report : OptimizationReport}
    (h : run rules options statistics p = .ok report q) :
    ∃ steps, Rule.Steps rules p.graph steps q.graph ∧ report.applied = steps.map (·.1) := by
  rcases run_eq_ok h with ⟨-, rfl, hgraph⟩ | ⟨-, q', hgraph, hpasses, -⟩
  · exact ⟨[], hgraph ▸ .nil, rfl⟩
  · obtain ⟨steps, hsteps, hrecorded⟩ := passes_steps hpasses
    exact ⟨steps, hgraph ▸ hsteps, hrecorded⟩

theorem run_converged {options : OptimizerOptions} {report : OptimizationReport}
    (h : run rules options statistics p = .ok report q) (hc : report.converged = true) :
    Rule.anyApplies rules q.graph = false := by
  rcases run_eq_ok h with ⟨rfl, -, -⟩ | ⟨-, q', hgraph, hpasses, hconverged⟩
  · rfl
  · obtain ⟨last, hlast, hdone⟩ := (Option.any_eq_true _ _).1 (hconverged.symm.trans hc)
    rw [← hgraph, ← passes_last hpasses hlast]
    simpa using hdone

/-- Where no rule applies to any node a run makes one pass, which does nothing. -/
theorem run_idle {options : OptimizerOptions} {report : OptimizationReport}
    (h : run rules options statistics p = .ok report q) (hne : rules ≠ [])
    (hidle : ∀ rule ∈ rules, ∀ id, rule.applies p.graph id = false) :
    report = ⟨[⟨0, [], false⟩], true⟩ ∧ q.graph = p.graph := by
  rcases run_eq_ok h with ⟨hnil, -, -⟩ | ⟨-, q', hgraph, hpasses, hconverged⟩
  · exact absurd hnil hne
  · obtain ⟨budget, hbudget⟩ := Nat.exists_eq_succ_of_ne_zero
      (Nat.ne_of_gt (Nat.lt_of_lt_of_le Nat.one_pos (Nat.le_max_right options.maxPasses 1)))
    rw [hbudget] at hpasses
    obtain ⟨pass, p', hpass, q'', -, h⟩ := passes_succ_eq_ok hpasses
    obtain ⟨steps, hsteps, rfl, hunchanged⟩ := pass_steps hpass
    obtain rfl := hsteps.eq_nil hidle
    have hnone : Rule.anyApplies rules p.graph = false :=
      Rule.anyApplies_eq_false_iff.2 fun rule hr id _ => hidle rule hr id
    rw [(hunchanged rfl).1, hnone] at h
    rcases h with ⟨-, hreports, hend⟩ | ⟨hmatch, -⟩
    · refine ⟨?_, hgraph.symm.trans hend⟩
      obtain ⟨reports, converged⟩ := report
      simp only at hreports hconverged
      rw [hconverged, hreports]
      rfl
    · cases hmatch

end Accounting

end Optimizing

section Optimize

variable {g : Graph} {options : OptimizerOptions} {statistics : Bool}

theorem optimize_of_run {report : OptimizationReport} {p : Progress}
    (h : Optimizing.run rules options statistics ⟨g, [], []⟩ = .ok report p) :
    optimize rules options statistics g = ⟨p.graph, p.log, .ok report⟩ := by
  rw [optimize, h]

variable (hvalid : ∀ g, P g → g.validate = .ok ()) (hrules : ∀ rule ∈ rules, rule.Keeps P)
  (hg : P g)

include hvalid hrules hg

/-- From a graph in `P` the run succeeds, on steps that all stay in `P`. -/
theorem exists_run (options : OptimizerOptions) (statistics : Bool) : ∃ report p,
    Optimizing.run rules options statistics ⟨g, [], []⟩ = .ok report p ∧ P p.graph ∧
      ∃ steps, Rule.Steps rules g steps p.graph ∧ report.applied = steps.map (·.1) ∧
        ∀ step ∈ steps, P step.2 := by
  obtain ⟨report, p, hrun, hp⟩ :=
    Optimizing.keeps_run hvalid hrules options statistics ⟨g, [], []⟩ hg
  obtain ⟨steps, hsteps, happlied⟩ := Optimizing.run_steps hrun
  exact ⟨report, p, hrun, hp, steps, hsteps, happlied, (hsteps.keeps hrules hg).2⟩

/-- Whether the graph is checked after each step makes no difference. -/
theorem optimize_validateEach (validateEach : Bool) :
    optimize rules { options with validateEach } statistics g =
      optimize rules options statistics g := by
  obtain ⟨report, p, hrun, -, -⟩ := exists_run hvalid hrules hg options statistics
  obtain ⟨report', p', hrun', -, -⟩ :=
    exists_run hvalid hrules hg { options with validateEach } statistics
  have hplain := Optimizing.agrees_run rules options statistics _ _ _ hrun
  have hplain' := Optimizing.agrees_run rules { options with validateEach } statistics _ _ _ hrun'
  cases hplain.symm.trans hplain'
  rw [optimize_of_run hrun, optimize_of_run hrun']

end Optimize

end LayerGraph
