import LayerGraph.Proofs.Representation
import LayerGraph.Graph.ReadyOrder
import Mathlib.Data.Fintype.EquivFin

/-!
# Ready orders are the least topological orders

Listing the earliest ready node again and again gives an order of all live nodes, each
after its producers. There is one such order, it comes first among all orders of that
kind, and it depends on nothing but the nodes and the edges.
-/

set_option autoImplicit false

namespace LayerGraph

open Relation

namespace Graph

variable {g : Graph}

theorem mem_producers_iff {p id : NodeId} : p ∈ g.producers id ↔ g.Edge p id := by
  cases hn : g.node? id with
  | none => simp [producers, hn, Edge, source?_of_hole (s := ⟨id, _⟩) hn]
  | some node =>
    simp only [producers, hn, List.mem_filterMap, Edge, source?_of_node hn, Node.input?]
    constructor
    · rintro ⟨input, hm, hp⟩
      obtain ⟨o, rfl, rfl⟩ := Option.map_eq_some_iff.1 hp
      obtain ⟨i, hi⟩ := List.mem_iff_getElem?.1 hm
      exact ⟨i, o, by simp [hi], rfl⟩
    · rintro ⟨i, o, hi, rfl⟩
      exact ⟨some o, List.mem_of_getElem? (Option.join_eq_some_iff.1 hi), rfl⟩

theorem Sound.edge_live (hg : g.Sound) {a b : NodeId} (he : g.Edge a b) :
    g.contains a = true ∧ g.contains b = true := by
  obtain ⟨i, o, hs, rfl⟩ := he
  obtain ⟨producer, hp, -⟩ := hg.linked.hasOutput_of_source? hs
  obtain ⟨consumer, hc, -⟩ := hasInput_of_source? hs
  exact ⟨contains_iff.2 ⟨producer, hp⟩, contains_iff.2 ⟨consumer, hc⟩⟩

/-- Going back along edges comes to an end. -/
theorem Sound.edge_wf (hg : g.Sound) : WellFounded g.Edge := by
  let before (a b : Fin g.nodes.size) : Prop := TransGen g.Edge a b
  have : IsTrans (Fin g.nodes.size) before := ⟨fun _ _ _ => TransGen.trans⟩
  have : Std.Irrefl before := ⟨fun a => hg.acyclic a⟩
  have hwf : WellFounded before := Finite.wellFounded_of_trans_of_irrefl before
  have hacc : ∀ a : Fin g.nodes.size, Acc g.Edge a := by
    intro a
    induction a using hwf.induction with
    | _ a ih =>
      refine ⟨_, fun b he => ?_⟩
      exact ih ⟨b, lt_size_of_contains (hg.edge_live he).1⟩ (.single he)
  refine ⟨fun id => ⟨_, fun b he => ?_⟩⟩
  exact hacc ⟨b, lt_size_of_contains (hg.edge_live he).1⟩

theorem Sound.seq? (hg : g.Sound) {id : NodeId} (hc : g.contains id = true) :
    g.seq? id = some id := by
  obtain ⟨node, hn⟩ := contains_iff.1 hc
  simp [Graph.seq?, hn, hg.node_seq hn]

/-- Once nothing is ready everything is listed. -/
theorem Sound.listed_of_no_ready (hg : g.Sound) {listed : List NodeId}
    (hno : ∀ id, ¬ g.IsReady listed id) (id : NodeId) (hc : g.contains id = true) :
    id ∈ listed := by
  induction id using hg.edge_wf.induction with
  | _ id ih =>
    by_contra hid
    refine hno id ⟨hc, hid, fun p hp => ?_⟩
    have he := mem_producers_iff.1 hp
    exact ih p he (hg.edge_live he).1

def AfterProducers (g : Graph) (l : List NodeId) : Prop :=
  ∀ before id after, l = before ++ id :: after → ∀ p ∈ g.producers id, p ∈ before

theorem AfterProducers.snoc {l : List NodeId} (hl : g.AfterProducers l) {id : NodeId}
    (hid : ∀ p ∈ g.producers id, p ∈ l) : g.AfterProducers (l ++ [id]) := by
  intro before x after heq p hp
  rcases List.eq_nil_or_concat after with rfl | ⟨after, y, rfl⟩
  · obtain ⟨rfl, hx⟩ := List.append_inj' heq rfl
    rw [← List.cons.inj hx |>.1] at hp
    exact hid p hp
  · have heq' : l ++ [id] = (before ++ x :: after) ++ [y] := by simpa using heq
    exact hl before x after (List.append_inj' heq' rfl).1 p hp

/-- All live nodes once each, every one after the producers of its connected inputs. -/
structure IsTopological (g : Graph) (l : List NodeId) : Prop where
  nodup : l.Nodup
  mem_iff : ∀ id, id ∈ l ↔ g.contains id = true
  after_producers : g.AfterProducers l

structure IsStart (g : Graph) (l : List NodeId) : Prop where
  nodup : l.Nodup
  live : ∀ id ∈ l, g.contains id = true
  after_producers : g.AfterProducers l

theorem IsStart.nil (g : Graph) : g.IsStart [] :=
  ⟨List.nodup_nil, by simp, fun before id after h => by simp at h⟩

theorem IsStart.snoc {l : List NodeId} (hl : g.IsStart l) {id : NodeId} (hr : g.IsReady l id) :
    g.IsStart (l ++ [id]) where
  nodup := hl.nodup.append (by simp) (by simpa using hr.2.1)
  live x hx := by
    rcases List.mem_append.1 hx with hx | hx
    · exact hl.live x hx
    · exact List.mem_singleton.1 hx ▸ hr.1
  after_producers := hl.after_producers.snoc hr.2.2

/-- The nodes listed so far and those a ready order adds make up a topological order. -/
theorem ReadyOrder.isTopological (hg : g.Sound) {listed rest : List NodeId}
    (hr : g.ReadyOrder listed rest) (hs : g.IsStart listed) : g.IsTopological (listed ++ rest) := by
  induction hr with
  | done hno =>
    rw [List.append_nil]
    exact ⟨hs.nodup, fun id => ⟨hs.live id, hg.listed_of_no_ready hno id⟩, hs.after_producers⟩
  | next hfirst _ ih =>
    rw [List.append_cons]
    exact ih (hs.snoc hfirst.1)

/-- The first node that an order adds to the nodes listed so far is ready. -/
theorem IsTopological.ready_head {listed rest : List NodeId} {id : NodeId}
    (ht : g.IsTopological (listed ++ id :: rest)) : g.IsReady listed id := by
  refine ⟨(ht.mem_iff id).1 (by simp), fun hm => ?_, ht.after_producers listed id rest rfl⟩
  exact (List.nodup_append.1 ht.nodup).2.2 id hm id (by simp) rfl

/-- No topological order with the same start comes before a ready order. -/
theorem ReadyOrder.least (hg : g.Sound) {listed rest other : List NodeId}
    (hr : g.ReadyOrder listed rest) (ht : g.IsTopological (listed ++ other)) :
    ¬ List.Lex (· < ·) (other.filterMap g.seq?) (rest.filterMap g.seq?) := by
  induction hr generalizing other with
  | done _ => exact List.not_lex_nil
  | @next listed rest id hfirst _ ih =>
    cases other with
    | nil =>
      rw [List.append_nil] at ht
      exact absurd ((ht.mem_iff id).2 hfirst.1.1) hfirst.1.2.1
    | cons x other =>
      have hx := ht.ready_head
      have hle := hfirst.2 x hx id (hg.seq? hfirst.1.1) x (hg.seq? hx.1)
      rw [List.filterMap_cons_some (hg.seq? hfirst.1.1), List.filterMap_cons_some (hg.seq? hx.1)]
      -- where the two first differ, the other order lists a ready node of a later number
      intro hlex
      cases hlex with
      | rel hlt => exact Nat.not_lt.2 hle hlt
      | cons hlex =>
        rw [List.append_cons] at ht
        exact ih ht hlex

theorem IsFirstReady.unique (hg : g.Sound) {listed : List NodeId} {a b : NodeId}
    (ha : g.IsFirstReady listed a) (hb : g.IsFirstReady listed b) : a = b :=
  Nat.le_antisymm (ha.2 b hb.1 a (hg.seq? ha.1.1) b (hg.seq? hb.1.1))
    (hb.2 a ha.1 b (hg.seq? hb.1.1) a (hg.seq? ha.1.1))

theorem ReadyOrder.unique (hg : g.Sound) {listed rest other : List NodeId}
    (hr : g.ReadyOrder listed rest) (ho : g.ReadyOrder listed other) : rest = other := by
  induction hr generalizing other with
  | done hno =>
    cases ho with
    | done _ => rfl
    | next hfirst _ => exact absurd hfirst.1 (hno _)
  | next hfirst _ ih =>
    cases ho with
    | done hno => exact absurd hfirst.1 (hno _)
    | next hfirst' htail =>
      obtain rfl := hfirst.unique hg hfirst'
      rw [ih htail]

section Transport

variable {h : Graph} (hseq : ∀ id, h.seq? id = g.seq? id)
  (hedge : ∀ p id, p ∈ h.producers id ↔ p ∈ g.producers id)

include hseq hedge

theorem isReady_congr {listed : List NodeId} {id : NodeId} :
    h.IsReady listed id ↔ g.IsReady listed id := by
  have hlive : h.contains id = g.contains id := by
    have := congrArg Option.isSome (hseq id)
    simpa [Graph.seq?, contains] using this
  simp only [IsReady, hlive, hedge]

/-- A ready order is told by sequence numbers and edges alone. -/
theorem ReadyOrder.transport {listed rest : List NodeId} (hr : h.ReadyOrder listed rest) :
    g.ReadyOrder listed rest := by
  induction hr with
  | done hno => exact .done fun id hid => hno id ((isReady_congr hseq hedge).2 hid)
  | next hfirst _ ih =>
    refine .next ⟨(isReady_congr hseq hedge).1 hfirst.1, fun other hother s hs t ht => ?_⟩ ih
    rw [← hseq] at hs ht
    exact hfirst.2 other ((isReady_congr hseq hedge).2 hother) s hs t ht

end Transport

end Graph

end LayerGraph
