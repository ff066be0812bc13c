import LayerGraph.Proofs.Optimizing
import LayerGraph.Proofs.Shortening
import Mathlib.Data.Prod.Lex
import Mathlib.Order.WellFounded

/-!
# Rewriting comes to an end

Whichever standard rule is applied to whichever node it applies to, the graph loses a
permute or a transpose, or it keeps them and loses a pair of reshapes that reshapes alone
connect.
-/

set_option autoImplicit false

namespace LayerGraph

open Relation

namespace Graph

variable {table : BindingTable} {g h : Graph} {id parent child a b : NodeId} {o : OutputSlot}

/-- `h` is what a standard rule makes of `g` at a node it applies to. -/
def StepsTo (g h : Graph) : Prop :=
  ∃ rule ∈ Rule.standard, ∃ id, rule.applies g id = true ∧ h = (rule.apply id).after g

theorem Valid.exists_rewrite (hv : g.Valid table) (hs : g.StepsTo h) :
    ∃ rule id applied, g.Rewrite rule id applied h := by
  obtain ⟨rule, hrule, id, happlies, rfl⟩ := hs
  obtain ⟨applied, next, happly, hrewrite⟩ :=
    Rule.standard_rewrites hrule table g id hv happlies
  rw [Edit.after_ok happly]
  exact ⟨rule.name, id, applied, hrewrite⟩

/-- Reshapes of which one feeds the other through reshapes alone. -/
def stackedPairs (g : Graph) : Set (NodeId × NodeId) := {p | TransGen g.Stacked p.1 p.2}

theorem Stacked.path (h : TransGen g.Stacked a b) : TransGen g.Edge a b :=
  TransGen.mono (fun _ _ => Stacked.edge) _ _ h

theorem finite_stackedPairs (g : Graph) : g.stackedPairs.Finite := by
  have hlt : ∀ k, g.IsReshape k → k < g.nodes.size := fun _ ⟨_, hf, _⟩ => lt_size_of_frame? hf
  refine ((Set.finite_lt_nat g.nodes.size).prod (Set.finite_lt_nat g.nodes.size)).subset ?_
  rintro ⟨a, b⟩ hab
  obtain ⟨_, ha, -⟩ := TransGen.head'_iff.1 hab
  obtain ⟨_, -, hb⟩ := TransGen.tail'_iff.1 hab
  exact ⟨hlt a ha.upper, hlt b hb.lower⟩

section Pairs

variable (hs : g.Shortens h child o) (hchild : g.Stacked parent child)
  (ho : g.source? ⟨parent, 0⟩ = some o)

include hs hchild ho

theorem Shortens.stackedPairs_subset : h.stackedPairs ⊆ g.stackedPairs := by
  rintro ⟨a, b⟩ hab
  refine TransGen.closed (fun x y hxy => ?_) a b hab
  rcases hs.stacked hchild ho hxy with ⟨-, hxy⟩ | ⟨hx, hy⟩
  · exact .single hxy
  · exact .head hx hy

/-- The pair of the rewrite is lost: what still feeds the second reshape is what feeds the
first one. -/
theorem Shortens.not_mem_stackedPairs (hac : g.Acyclic) : (parent, child) ∉ h.stackedPairs := by
  intro hpair
  obtain ⟨k, hpath, hlast⟩ := TransGen.tail'_iff.1 hpair
  rcases hs.stacked hchild ho hlast with ⟨hne, -⟩ | ⟨hk, -⟩
  · exact hne rfl
  · rcases reflTransGen_iff_eq_or_transGen.1 hpath with rfl | hpath
    · exact hac _ (.single hk.edge)
    · have hback : (parent, k) ∈ g.stackedPairs := hs.stackedPairs_subset hchild ho hpath
      exact hac _ ((Stacked.path hback).tail hk.edge)

end Pairs

/-- Permutes and transposes count first, then pairs of reshapes. -/
noncomputable def rank (g : Graph) : Nat ×ₗ Nat := toLex (g.reorderings, g.stackedPairs.ncard)

theorem Rewrite.rank_lt {rule : String} {applied : Applied} (hr : g.Rewrite rule id applied h)
    (hg : g.Sound) : h.rank < g.rank := by
  rw [rank, rank, Prod.Lex.toLex_lt_toLex]
  rcases hr.progress hg with ⟨-, hlt⟩ | ⟨parent, o, hchild, ho, hs⟩
  · exact .inl hlt
  · have hpair : (parent, id) ∈ g.stackedPairs := .single hchild
    have hlt : h.stackedPairs.ncard < g.stackedPairs.ncard :=
      Set.ncard_lt_ncard ⟨hs.stackedPairs_subset hchild ho, fun hback =>
        hs.not_mem_stackedPairs hchild ho hg.acyclic (hback hpair)⟩ g.finite_stackedPairs
    rcases hs.reorderings_le.lt_or_eq with hfewer | hsame
    · exact .inl hfewer
    · exact .inr ⟨hsame, hlt⟩

/-- Applying standard rules to valid graphs comes to an end, whichever rules are applied to
whichever nodes they apply to. -/
theorem rewriting_terminates :
    (WellFounded fun h g : Graph => g.Reachable ∧ g.validate = .ok () ∧ g.StepsTo h) ∧
      ∀ s : Nat → Graph, (s 0).Reachable → (s 0).validate = .ok () →
        ∃ n, ¬ (s n).StepsTo (s (n + 1)) := by
  constructor
  · refine Subrelation.wf (fun {h g} hstep => ?_) (InvImage.wf rank wellFounded_lt)
    obtain ⟨hg, hvalid, hstep⟩ := hstep
    obtain ⟨table, hv⟩ := hg.sound.validate_eq_ok_iff.1 hvalid
    obtain ⟨rule, id, applied, hr⟩ := hv.exists_rewrite hstep
    exact hr.rank_lt hv.sound
  · intro s hg hvalid
    by_contra hall
    simp only [not_exists, not_not] at hall
    obtain ⟨table, hv⟩ := hg.sound.validate_eq_ok_iff.1 hvalid
    have hvalid : ∀ n, (s n).Valid table := by
      intro n
      induction n with
      | zero => exact hv
      | succ n ih =>
        obtain ⟨rule, id, applied, hr⟩ := ih.exists_rewrite (hall n)
        exact hr.valid ih
    obtain ⟨n, hn⟩ := WellFounded.not_rel_apply_succ (r := (· < ·)) fun n => (s n).rank
    obtain ⟨rule, id, applied, hr⟩ := (hvalid n).exists_rewrite (hall n)
    exact hn (hr.rank_lt (hvalid n).sound)

theorem rewriting_terminates_folding :
    folding.Reachable ∧ folding.validate = .ok () ∧
      folding.StepsTo ((Rule.permuteAsReshape.apply 6).after folding) ∧
      Acc (fun h g : Graph => g.Reachable ∧ g.validate = .ok () ∧ g.StepsTo h) folding := by
  refine ⟨.changed .empty _, by decide +kernel, ?_, rewriting_terminates.1.apply folding⟩
  exact ⟨Rule.permuteAsReshape, by simp [Rule.standard], 6, by decide +kernel, rfl⟩

end Graph

end LayerGraph
