import LayerGraph.Proofs.Faults
import LayerGraph.Proofs.Drafts
import Mathlib.Algebra.BigOperators.Group.List.Basic

/-!
# Which dimensions make a shape

Dimensions are judged one by one, each against the product of those before it, and the first
fault ends the pass. Still only the product of them all counts, and not their order. So the
dimensions of a shape make one in any order, and no reordering of axes fails for its dimensions.
-/

set_option autoImplicit false

namespace LayerGraph

namespace Shape

variable {dims : List Nat}

theorem volume_eq_prod (dims : List Nat) : volume dims = dims.prod := rfl

theorem indexLimit_eq : indexLimit = 2 ^ 64 := rfl

/-- The fault met first by a pass over dimensions, when those before it are positive and their
product is in range. -/
inductive FirstFault (dims : List Nat) : DescriptorError → Prop where
  | empty (h : dims = []) : FirstFault dims .emptyShape
  | zero (before after : List Nat) (h : dims = before ++ 0 :: after)
    (hpos : ∀ d ∈ before, 0 < d) (hlt : before.prod < 2 ^ 64) :
    FirstFault dims (.zeroDimension before.length dims)
  | overflow (before after : List Nat) (dim : Nat) (h : dims = before ++ dim :: after)
    (hpos : ∀ d ∈ before, 0 < d) (hlt : before.prod < 2 ^ 64) (hdim : 2 ^ 64 ≤ before.prod * dim) :
    FirstFault dims (.elementCountOverflow dims)

theorem firstFault_of_faultFrom (before : List Nat) {rest : List Nat} {error : DescriptorError}
    (h : faultFrom dims before.length before.prod rest = some error)
    (hdims : dims = before ++ rest) (hpos : ∀ d ∈ before, 0 < d) (hlt : before.prod < 2 ^ 64) :
    FirstFault dims error := by
  induction rest generalizing before with
  | nil => cases h
  | cons dim rest ih =>
    rw [faultFrom, indexLimit_eq] at h
    split at h
    · rename_i hzero
      cases h
      subst hzero
      exact .zero before rest hdims hpos hlt
    · split at h
      · rename_i hover
        cases h
        exact .overflow before rest dim hdims hpos hlt hover
      · rename_i hdim hfits
        -- the dimension joins those before
        have hprod : (before ++ [dim]).prod = before.prod * dim := by simp
        refine ih (before ++ [dim]) ?_ (by simp [hdims]) ?_ (by omega)
        · rw [hprod, List.length_append, List.length_singleton]
          exact h
        · intro d hd
          rcases List.mem_append.1 hd with hd | hd
          · exact hpos d hd
          · rw [List.mem_singleton.1 hd]
            omega

theorem ofDims_eq_error_iff_fault {error : DescriptorError} :
    ofDims dims = .error error ↔ fault? dims = some error := by
  rw [ofDims]
  split
  · simp_all
  · simp_all

theorem faultFrom_split {before rest : List Nat} (hdims : dims = before ++ rest)
    (hpos : ∀ d ∈ before, 0 < d) (hlt : before.prod < 2 ^ 64) :
    faultFrom dims 0 1 dims = faultFrom dims before.length before.prod rest := by
  have hpass : faultFrom dims 0 1 (before ++ rest) =
      faultFrom dims (0 + before.length) (1 * volume before) rest :=
    faultFrom_append rest hpos (by rwa [Nat.one_mul])
  rwa [← hdims, Nat.zero_add, Nat.one_mul, volume_eq_prod] at hpass

/-- What refuses dimensions is the first fault among them. -/
theorem ofDims_eq_error_iff {error : DescriptorError} :
    ofDims dims = .error error ↔ FirstFault dims error := by
  rw [ofDims_eq_error_iff_fault, fault?]
  constructor
  · intro h
    split at h
    · rename_i hempty
      cases h
      exact .empty (List.isEmpty_iff.1 hempty)
    · exact firstFault_of_faultFrom [] h rfl (by simp) (by simp)
  · intro h
    cases h with
    | empty h => simp [h]
    | zero before after h hpos hlt =>
      rw [if_neg (by simp [h]), faultFrom_split h hpos hlt, faultFrom, if_pos rfl]
    | overflow before after dim h hpos hlt hdim =>
      have hne : dim ≠ 0 := by
        rintro rfl
        simp at hdim
      rw [if_neg (by simp [h]), faultFrom_split h hpos hlt, faultFrom, if_neg hne, indexLimit_eq,
        if_pos hdim]

-- the product leaves the range before the zero is met
example : fault? [4294967296, 4294967296, 0] =
    some (.elementCountOverflow [4294967296, 4294967296, 0]) := by decide

theorem exists_ofDims_iff : (∃ s, ofDims dims = .ok s) ↔
    dims ≠ [] ∧ (∀ d ∈ dims, 0 < d) ∧ dims.prod ≤ 2 ^ 64 - 1 := by
  have hshape : (∃ s, ofDims dims = .ok s) ↔ IsShape dims := by
    simp only [ofDims_eq_ok_iff, isShape_iff, eq_comm (a := dims)]
  rw [hshape]
  constructor
  · rintro ⟨hne, hpos, hlt⟩
    rw [volume_eq_prod, indexLimit_eq] at hlt
    exact ⟨hne, hpos, by omega⟩
  · rintro ⟨hne, hpos, hle⟩
    refine ⟨hne, hpos, ?_⟩
    rw [volume_eq_prod, indexLimit_eq]
    omega

end Shape

namespace Permutation

variable {p : Permutation} {s : Shape}

/-- What is inferred for a shape by a permutation: nothing where the ranks differ, and else a
shape of the same dimensions in another order. -/
def Infers (p : Permutation) (s : Shape) (inferred : Option (Except DescriptorError Shape)) :
    Prop :=
  (p.length ≠ s.rank → inferred = none) ∧
  (p.length = s.rank → ∃ out, inferred = some (.ok out) ∧ out.dims.Perm s.dims ∧
    out.numElements = s.numElements)

theorem Infers.ne_error {inferred : Option (Except DescriptorError Shape)}
    (h : p.Infers s inferred) (error : DescriptorError) : inferred ≠ some (.error error) := by
  by_cases hr : p.length = s.rank
  · obtain ⟨out, hout, -⟩ := h.2 hr
    simp [hout]
  · simp [h.1 hr]

theorem infers_transposeShape? (p : Permutation) (s : Shape) :
    p.Infers s (p.transposeShape? s) := by
  refine ⟨fun hr => if_neg (Ne.symm hr), fun hr => ?_⟩
  have hperm : (gatherDims s.dims p.axes).Perm s.dims := gatherDims_perm p hr
  obtain ⟨out, hout, hcount⟩ := Shape.exists_of_perm hperm
  exact ⟨out, transposeShape?_eq_some_iff.2 ⟨hr, hout.symm⟩, hout ▸ hperm, hcount⟩

theorem infers_permuteShape? (p : Permutation) (s : Shape) : p.Infers s (p.permuteShape? s) := by
  have hlength : p.inverse.length = p.length := p.length_inverse
  have hinfers := p.inverse.infers_transposeShape? s
  rwa [Infers, hlength, ← permuteShape?_eq] at hinfers

end Permutation

theorem DescriptorError.not_inferred (error : DescriptorError) : ¬ error.Inferred := by
  rintro ⟨p, s, h | h⟩
  · exact (p.infers_permuteShape? s).ne_error error h
  · exact (p.infers_transposeShape? s).ne_error error h

namespace Graph

theorem checkOperation_ne_descriptor (g : Graph) (node : Node) (error : DescriptorError) :
    g.checkOperation node ≠ .error (.descriptor error) := by
  intro h
  rcases about_of_checkOperation h with hnode | ⟨d, hd, -⟩
  · cases hnode
  · exact d.not_inferred hd

theorem validate_ne_descriptor (g : Graph) (error : DescriptorError) :
    g.validate ≠ .error (.descriptor error) := by
  intro h
  rcases fault_of_validate h with ⟨hcycle, -⟩ | ⟨node, -, hnode⟩ | ⟨d, hd, -⟩
  · cases hcycle
  · cases hnode
  · exact d.not_inferred hd

end Graph

/-- Dimensions make a shape exactly when there are some, all are positive and their product fits in
64 bits; the element count is that product, also when it is multiplied up within the range. What
refuses them otherwise is the first fault. So any order of them makes a shape with as many
elements, moving or reading axes gives a shape wherever the ranks agree, and no check of a graph
ever fails for the dimensions of a shape it infers. -/
theorem Shape.ofDims_exact (dims : List Nat) :
    ((∃ s, ofDims dims = .ok s) ↔ dims ≠ [] ∧ (∀ d ∈ dims, 0 < d) ∧ dims.prod ≤ 2 ^ 64 - 1) ∧
    (∀ error, ofDims dims = .error error ↔ FirstFault dims error) ∧
    (∀ s, ofDims dims = .ok s →
      s.dims = dims ∧ s.numElements = dims.prod ∧ Bounded.count? dims = some s.numElements ∧
      (∀ dims', dims'.Perm dims →
        ∃ t, ofDims dims' = .ok t ∧ t.dims = dims' ∧ t.numElements = s.numElements) ∧
      ∀ p : Permutation, p.Infers s (p.permuteShape? s) ∧ p.Infers s (p.transposeShape? s)) ∧
    ∀ (g : Graph) (error : DescriptorError), g.validate ≠ .error (.descriptor error) ∧
      ∀ node, g.checkOperation node ≠ .error (.descriptor error) := by
  refine ⟨exists_ofDims_iff, fun error => ofDims_eq_error_iff, fun s hs => ?_, fun g error =>
    ⟨g.validate_ne_descriptor error, fun node => g.checkOperation_ne_descriptor node error⟩⟩
  obtain rfl := ofDims_eq_ok_iff.1 hs
  refine ⟨rfl, volume_eq_prod s.dims, Bounded.count?_eq s.dims_pos s.volume_lt, ?_,
    fun p => ⟨p.infers_permuteShape? s, p.infers_transposeShape? s⟩⟩
  intro dims' hperm
  obtain ⟨t, rfl, hcount⟩ := exists_of_perm hperm
  exact ⟨t, ofDims_eq_ok_iff.2 rfl, rfl, hcount⟩

/-- The largest element count, in either order, and one more. -/
theorem Shape.ofDims_exact_largest : ∃ s t,
    ofDims [4294967295, 4294967297] = .ok s ∧ s.numElements = 2 ^ 64 - 1 ∧
      ofDims [4294967297, 4294967295] = .ok t ∧ t.numElements = 2 ^ 64 - 1 ∧
      ¬ ∃ u, ofDims [4294967296, 4294967296] = .ok u := by
  have hlargest := ofDims_exact [4294967295, 4294967297]
  obtain ⟨s, hs⟩ := hlargest.1.2 (by decide)
  obtain ⟨-, hcount, -, hperm, -⟩ := hlargest.2.2.1 s hs
  obtain ⟨t, ht, -, hsame⟩ := hperm [4294967297, 4294967295] (by decide)
  refine ⟨s, t, hs, hcount, ht, hsame.trans hcount, fun hover => ?_⟩
  exact absurd ((ofDims_exact [4294967296, 4294967296]).1.1 hover) (by decide)

end LayerGraph
