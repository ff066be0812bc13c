import LayerGraph.Tensor.Shape

/-!
# Axis permutations

A permutation is a rearrangement of the axes below its length. It is used in two
readings: as the axis each output axis reads from, and as the axis each input axis is
moved to. The second reading of a permutation is the first one of its inverse.
-/

set_option autoImplicit false

namespace LayerGraph

structure Permutation where
  axes : List Nat
  rearranged : axes.Perm (List.range axes.length)
  deriving DecidableEq

namespace Permutation

def distinctBelow (bound : Nat) : List Nat → List Nat → Bool
  | _, [] => true
  | seen, axis :: rest =>
    decide (axis < bound) && !seen.contains axis && distinctBelow bound (axis :: seen) rest

theorem distinctBelow_iff {bound : Nat} {seen axes : List Nat} :
    distinctBelow bound seen axes = true ↔
      axes.Nodup ∧ ∀ a ∈ axes, a < bound ∧ a ∉ seen := by
  induction axes generalizing seen with
  | nil => simp [distinctBelow]
  | cons axis rest ih =>
    simp only [distinctBelow, Bool.and_eq_true, decide_eq_true_eq, Bool.not_eq_true',
      List.contains_eq_mem, decide_eq_false_iff_not, ih, List.nodup_cons, List.mem_cons]
    constructor
    · rintro ⟨⟨hb, hs⟩, hn, hr⟩
      refine ⟨⟨fun hm => (hr axis hm).2 (Or.inl rfl), hn⟩, ?_⟩
      rintro a (rfl | ha)
      · exact ⟨hb, hs⟩
      · exact ⟨(hr a ha).1, fun h => (hr a ha).2 (Or.inr h)⟩
    · rintro ⟨⟨hm, hn⟩, hr⟩
      refine ⟨hr axis (Or.inl rfl), hn, fun a ha => ⟨(hr a (Or.inr ha)).1, ?_⟩⟩
      rintro (rfl | h)
      · exact hm ha
      · exact (hr a (Or.inr ha)).2 h

/-- Distinct numbers below their count are all the numbers below it. -/
theorem perm_range_of_nodup {axes : List Nat} (hn : axes.Nodup)
    (hb : ∀ a ∈ axes, a < axes.length) : axes.Perm (List.range axes.length) := by
  rw [List.perm_ext_iff_of_nodup hn List.nodup_range]
  intro a
  refine ⟨fun ha => List.mem_range.2 (hb a ha), fun ha => ?_⟩
  apply Classical.byContradiction
  intro hmiss
  have hsub : a :: axes ⊆ List.range axes.length := by
    intro x hx
    rcases List.mem_cons.1 hx with rfl | hx
    · exact ha
    · exact List.mem_range.2 (hb x hx)
  have hlen := List.Nodup.length_le_of_subset (List.nodup_cons.2 ⟨hmiss, hn⟩) hsub
  rw [List.length_cons, List.length_range] at hlen
  omega

def ofAxes? (axes : List Nat) : Option Permutation :=
  if h : distinctBelow axes.length [] axes = true then
    have hd := distinctBelow_iff.1 h
    some ⟨axes, perm_range_of_nodup hd.1 fun a ha => (hd.2 a ha).1⟩
  else none

def length (p : Permutation) : Nat := p.axes.length

def isIdentity (p : Permutation) : Bool := p.axes == List.range p.axes.length

theorem nodup_axes (p : Permutation) : p.axes.Nodup :=
  p.rearranged.nodup_iff.2 List.nodup_range

theorem mem_axes_iff (p : Permutation) (a : Nat) : a ∈ p.axes ↔ a < p.axes.length := by
  rw [p.rearranged.mem_iff, List.mem_range]

/-- At each axis, the position that holds it. -/
def inverseAxes (p : Permutation) : List Nat :=
  (List.range p.axes.length).map fun axis => p.axes.idxOf axis

theorem inverseAxes_perm (p : Permutation) :
    p.inverseAxes.Perm (List.range p.inverseAxes.length) := by
  apply perm_range_of_nodup
  · rw [inverseAxes, List.nodup_iff_pairwise_ne, List.pairwise_map]
    apply List.Pairwise.imp_of_mem _ (List.nodup_iff_pairwise_ne.1 List.nodup_range)
    intro a b ha hb hab heq
    have ha' := (p.mem_axes_iff a).2 (List.mem_range.1 ha)
    have hb' := (p.mem_axes_iff b).2 (List.mem_range.1 hb)
    have h₁ := List.getElem_idxOf (List.idxOf_lt_length_of_mem ha')
    have h₂ := List.getElem_idxOf (List.idxOf_lt_length_of_mem hb')
    apply hab
    rw [← h₁, ← h₂]
    simp only [heq]
  · intro i hi
    simp only [inverseAxes, List.mem_map, List.mem_range, List.length_map,
      List.length_range] at hi ⊢
    obtain ⟨a, ha, rfl⟩ := hi
    exact List.idxOf_lt_length_of_mem ((p.mem_axes_iff a).2 ha)

def inverse (p : Permutation) : Permutation := ⟨p.inverseAxes, p.inverseAxes_perm⟩

def text (p : Permutation) : String := natListText p.axes

/-- Dimensions whose axis `j` is axis `source[j]` of the given ones. -/
def gatherDims (dims source : List Nat) : List Nat :=
  source.map fun axis => dims.getD axis 0

/-- Shape read through a permutation: output axis `j` is input axis `p[j]`. Nothing when
the ranks differ. -/
def transposeShape? (p : Permutation) (s : Shape) : Option (Except DescriptorError Shape) :=
  if s.rank = p.length then some (Shape.ofDims (gatherDims s.dims p.axes)) else none

/-- Dimensions where input axis `i` has been moved to axis `targets[i]`. -/
def scatterDims (dims targets : List Nat) : List Nat :=
  (dims.zip targets).foldl (fun moved entry => moved.set entry.2 entry.1)
    (List.replicate dims.length 0)

/-- Shape moved by a permutation: input axis `i` becomes output axis `p[i]`. Nothing when
the ranks differ. -/
def permuteShape? (p : Permutation) (s : Shape) : Option (Except DescriptorError Shape) :=
  if s.rank = p.length then some (Shape.ofDims (scatterDims s.dims p.axes)) else none

end Permutation

end LayerGraph
