import LayerGraph.Optimizer.AsReshape
import LayerGraph.Proofs.RowMajor
import Mathlib.Data.List.Sort

/-!
# Reorderings that come to nothing

Two facts about axes decide what may be left out of a graph: a reordering whose long axes
keep their order leaves every element in place, and so do two of which the second reads
back what the first has moved.
-/

set_option autoImplicit false

namespace LayerGraph

namespace Permutation

variable {p : Permutation} {i axis : Nat}

theorem idxOf_eq_of_getElem? (h : p.axes[i]? = some axis) : p.axes.idxOf axis = i := by
  obtain ⟨hi, rfl⟩ := List.getElem?_eq_some_iff.1 h
  exact p.nodup_axes.idxOf_getElem i hi

theorem getElem?_idxOf (h : axis < p.axes.length) :
    p.axes[p.axes.idxOf axis]? = some axis := by
  have hlt := List.idxOf_lt_length_of_mem ((p.mem_axes_iff axis).2 h)
  rw [List.getElem?_eq_getElem hlt, List.getElem_idxOf hlt]

theorem lt_of_getElem? (h : p.axes[i]? = some axis) : axis < p.axes.length :=
  (p.mem_axes_iff axis).1 (List.mem_of_getElem? h)

theorem length_inverse (p : Permutation) : p.inverse.axes.length = p.axes.length := by
  simp [inverse, inverseAxes]

theorem getElem?_inverse_iff : p.inverse.axes[axis]? = some i ↔ p.axes[i]? = some axis := by
  simp only [inverse, inverseAxes, List.getElem?_map, Option.map_eq_some_iff]
  constructor
  · rintro ⟨a, ha, rfl⟩
    obtain ⟨hlt, rfl⟩ := List.getElem?_eq_some_iff.1 ha
    simp only [List.length_range] at hlt
    simpa using getElem?_idxOf hlt
  · intro h
    exact ⟨axis, List.getElem?_range (lt_of_getElem? h), idxOf_eq_of_getElem? h⟩

section Scatter

variable {entries : List (Nat × Nat)} {moved : List Nat} {k : Nat}

theorem length_scatter :
    (entries.foldl (fun moved entry => moved.set entry.2 entry.1) moved).length =
      moved.length := by
  induction entries generalizing moved with
  | nil => rfl
  | cons entry rest ih => rw [List.foldl_cons, ih, List.length_set]

theorem getElem?_scatter_of_not_mem (h : k ∉ entries.map (·.2)) :
    (entries.foldl (fun moved entry => moved.set entry.2 entry.1) moved)[k]? = moved[k]? := by
  induction entries generalizing moved with
  | nil => rfl
  | cons entry rest ih =>
    simp only [List.map_cons, List.mem_cons, not_or] at h
    rw [List.foldl_cons, ih h.2, List.getElem?_set_ne (Ne.symm h.1)]

theorem getElem?_scatter_of_mem {d : Nat} (hn : (entries.map (·.2)).Nodup)
    (hk : k < moved.length) (h : (d, k) ∈ entries) :
    (entries.foldl (fun moved entry => moved.set entry.2 entry.1) moved)[k]? = some d := by
  induction entries generalizing moved with
  | nil => simp at h
  | cons entry rest ih =>
    obtain ⟨hout, hn⟩ := List.nodup_cons.1 hn
    rw [List.foldl_cons]
    rcases List.mem_cons.1 h with rfl | h
    · rw [getElem?_scatter_of_not_mem hout, List.getElem?_set_self hk]
    · exact ih hn (by simpa using hk) h

end Scatter

/-- Moving each axis where a permutation says is reading through its inverse. -/
theorem scatterDims_eq {dims : List Nat} (h : dims.length = p.axes.length) :
    scatterDims dims p.axes = gatherDims dims p.inverse.axes := by
  have hlen : (gatherDims dims p.inverse.axes).length = dims.length := by
    rw [length_gatherDims, length_inverse, h]
  apply List.ext_getElem?
  intro k
  rcases Nat.lt_or_ge k dims.length with hk | hk
  · have hi := getElem?_idxOf (h ▸ hk)
    have hlt : p.axes.idxOf k < dims.length := by
      rw [h]
      exact (List.getElem?_eq_some_iff.1 hi).1
    have hsnd : (dims.zip p.axes).map (·.2) = p.axes := List.map_snd_zip (Nat.le_of_eq h.symm)
    have hmem : (dims[p.axes.idxOf k], k) ∈ dims.zip p.axes := by
      apply List.mem_of_getElem? (i := p.axes.idxOf k)
      simp [List.zip, List.getElem?_zipWith, hlt, hi]
    rw [scatterDims, getElem?_scatter_of_mem (hsnd.symm ▸ p.nodup_axes) (by simpa using hk) hmem,
      gatherDims, List.getElem?_map, getElem?_inverse_iff.2 hi]
    simp [List.getD_eq_getElem?_getD, hlt]
  · rw [List.getElem?_eq_none (by simpa [scatterDims, length_scatter] using hk),
      List.getElem?_eq_none (hlen ▸ hk)]

end Permutation

open Permutation (gatherDims)

section Reordered

variable {dims coords : List Nat} {p : Permutation}

theorem getElem?_sourceCoordinates {axis : Nat} (h : axis < p.axes.length) :
    (sourceCoordinates p.axes coords)[axis]? = some (coords.getD (p.axes.idxOf axis) 0) := by
  simp [sourceCoordinates, h]

theorem length_sourceCoordinates : (sourceCoordinates p.axes coords).length = p.axes.length := by
  simp [sourceCoordinates]

theorem sourceCoordinates_mem (hd : p.axes.length = dims.length)
    (h : coords ∈ coordinates (gatherDims dims p.axes)) :
    sourceCoordinates p.axes coords ∈ coordinates dims := by
  rw [mem_coordinates, List.forall₂_iff_get] at h ⊢
  obtain ⟨hlen, hlt⟩ := h
  rw [length_gatherDims] at hlen
  refine ⟨length_sourceCoordinates.trans hd, fun axis h₁ h₂ => ?_⟩
  have hi := Permutation.getElem?_idxOf (p := p) (hd ▸ h₂)
  have hidx := (List.getElem?_eq_some_iff.1 hi).1
  have := hlt (p.axes.idxOf axis) (hlen ▸ hidx) (by rwa [length_gatherDims])
  have hat : p.axes[p.axes.idxOf axis] = axis := List.getElem_idxOf hidx
  simpa [sourceCoordinates, gatherDims, List.getD_eq_getElem?_getD, hlen ▸ hidx, hat, h₂]
    using this

theorem getElem?_reordered {α : Type} (default : α) (data : Array α)
    (h : coords ∈ coordinates (gatherDims dims p.axes)) :
    (reordered default dims p.axes data)[position (gatherDims dims p.axes) coords]? =
      some (data.getD (position dims (sourceCoordinates p.axes coords)) default) := by
  rw [reordered, List.getElem?_map, getElem?_coordinates h, Option.map_some]

end Reordered

section Cancel

variable {first second : Permutation} {dims : List Nat}

theorem axesCancel_iff {a b : List Nat} : Rule.axesCancel a b = true ↔
    a.length = b.length ∧ ∀ j read : Nat, b[j]? = some read → a[read]? = some j := by
  simp only [Rule.axesCancel, Bool.and_eq_true, beq_iff_eq, List.all_eq_true, Prod.forall,
    List.mem_zipIdx_iff_getElem?]
  exact and_congr_right fun _ => ⟨fun h j read => h read j, fun h read j => h j read⟩

/-- What it takes for a second reading to take back a first. -/
structure Cancel (first second : Permutation) : Prop where
  length_eq : first.axes.length = second.axes.length
  read_back : ∀ j axis : Nat, second.axes[j]? = some axis → first.axes[axis]? = some j

theorem Cancel.of_transposes (h : Rule.axesCancel first.axes second.axes = true) :
    Cancel first second :=
  ⟨(axesCancel_iff.1 h).1, (axesCancel_iff.1 h).2⟩

theorem Cancel.of_permutes (h : Rule.axesCancel second.axes first.axes = true) :
    Cancel first.inverse second.inverse := by
  obtain ⟨hlen, hread⟩ := axesCancel_iff.1 h
  refine ⟨by rw [Permutation.length_inverse, Permutation.length_inverse, hlen], ?_⟩
  intro j axis hj
  rw [Permutation.getElem?_inverse_iff] at hj ⊢
  have hlt : j < first.axes.length := hlen ▸ Permutation.lt_of_getElem? hj
  have hback := hread j _ (List.getElem?_eq_getElem hlt)
  have haxis : axis = first.axes[j] :=
    (Permutation.idxOf_eq_of_getElem? hj).symm.trans (Permutation.idxOf_eq_of_getElem? hback)
  rw [haxis, List.getElem?_eq_getElem hlt]

theorem Cancel.gatherDims_eq (h : Cancel first second) (hd : dims.length = first.axes.length) :
    gatherDims (gatherDims dims first.axes) second.axes = dims := by
  apply List.ext_getElem (by rw [length_gatherDims, ← h.length_eq, hd])
  intro j h₁ h₂
  rw [length_gatherDims] at h₁
  have hread := h.read_back j _ (List.getElem?_eq_getElem h₁)
  simp [gatherDims, List.getD_eq_getElem?_getD, hread, h₂]

theorem Cancel.sourceCoordinates_eq (h : Cancel first second) {coords : List Nat}
    (hc : coords.length = first.axes.length) :
    sourceCoordinates first.axes (sourceCoordinates second.axes coords) = coords := by
  apply List.ext_getElem (by rw [length_sourceCoordinates, hc])
  intro j h₁ h₂
  have hj : j < second.axes.length := by rw [← h.length_eq, ← hc]; exact h₂
  have hread := h.read_back j _ (List.getElem?_eq_getElem hj)
  have hlt : second.axes[j] < second.axes.length :=
    Permutation.lt_of_getElem? (List.getElem?_eq_getElem hj)
  have hfirst := Permutation.idxOf_eq_of_getElem? hread
  have hsecond := Permutation.idxOf_eq_of_getElem? (List.getElem?_eq_getElem hj)
  have hstep : (sourceCoordinates second.axes coords).getD (first.axes.idxOf j) 0 = coords[j] := by
    rw [List.getD_eq_getElem?_getD, hfirst, getElem?_sourceCoordinates hlt, hsecond]
    simp [List.getD_eq_getElem?_getD, h₂]
  simpa [sourceCoordinates] using hstep

theorem Cancel.reordered_eq (h : Cancel first second) (hd : dims.length = first.axes.length)
    {α : Type} (default : α) {data : Array α} (hs : data.size = volume dims) :
    reordered default (gatherDims dims first.axes) second.axes
      (reordered default dims first.axes data).toArray = data.toList := by
  have hmid : second.axes.length = (gatherDims dims first.axes).length := by
    rw [length_gatherDims, h.length_eq]
  rw [← map_getD_coordinates default hs, reordered, h.gatherDims_eq hd]
  apply List.map_congr_left
  intro coords hc
  have hin := sourceCoordinates_mem hmid ((h.gatherDims_eq hd).symm ▸ hc)
  have hread := getElem?_reordered default data hin
  rw [h.sourceCoordinates_eq ((length_of_mem_coordinates hc).trans hd)] at hread
  simp [Array.getD_eq_getD_getElem?, hread]

end Cancel

section LayoutPreserving

def pairPosition : List (Nat × Nat) → Nat
  | [] => 0
  | entry :: rest => entry.2 * volume (rest.map (·.1)) + pairPosition rest

theorem position_eq_pairPosition {dims coords : List Nat} (h : coords.length = dims.length) :
    position dims coords = pairPosition (dims.zip coords) := by
  induction dims generalizing coords with
  | nil => simp [position, pairPosition]
  | cons dim rest ih =>
    cases coords with
    | nil => simp at h
    | cons coord coords =>
      have h : coords.length = rest.length := by simpa using h
      rw [position, List.zip_cons_cons, pairPosition, ih h, List.map_fst_zip (Nat.le_of_eq h.symm)]

theorem volume_longAxes (entries : List (Nat × Nat)) :
    volume ((entries.filter fun e => e.1 ≠ 1).map (·.1)) = volume (entries.map (·.1)) := by
  induction entries with
  | nil => rfl
  | cons e rest ih => by_cases he : e.1 = 1 <;> simp_all

/-- An axis of length one adds nothing to a position. -/
theorem pairPosition_filter {entries : List (Nat × Nat)} (h : ∀ e ∈ entries, e.2 < e.1) :
    pairPosition (entries.filter fun e => e.1 ≠ 1) = pairPosition entries := by
  induction entries with
  | nil => rfl
  | cons e rest ih =>
    have ih := ih fun e he => h e (List.mem_cons_of_mem _ he)
    by_cases he : e.1 = 1
    · have hz : e.2 = 0 := by have := h e List.mem_cons_self; omega
      rw [List.filter_cons_of_neg (by simpa using he), ih, pairPosition, hz]
      simp
    · rw [List.filter_cons_of_pos (by simpa using he), pairPosition, pairPosition,
        volume_longAxes, ih]

/-- The check looks at each long axis and the one before it, and that is to look at all pairs. -/
theorem keepsOrder_iff {dims source : List Nat} (last : Option Nat) :
    let long := source.filter fun axis => dims.getD axis 0 ≠ 1
    keepsOrder dims last source = true ↔
      long.Pairwise (· ≤ ·) ∧ ∀ previous ∈ last, ∀ axis ∈ long, previous ≤ axis := by
  induction source generalizing last with
  | nil => simp [keepsOrder]
  | cons axis rest ih =>
    rw [keepsOrder]
    by_cases hone : dims.getD axis 0 = 1
    · rw [if_pos hone, List.filter_cons_of_neg (by simpa using hone)]
      exact ih last
    · rw [if_neg hone, List.filter_cons_of_pos (by simpa using hone)]
      have hrest := ih (some axis)
      simp only [Option.mem_some_iff, forall_eq'] at hrest
      simp only [List.pairwise_cons, List.forall_mem_cons]
      cases last with
      | none => simp [hrest, and_comm]
      | some previous =>
        simp only [Option.any_some, Option.mem_some_iff, forall_eq']
        by_cases hback : axis < previous
        · simp [hback]
        · rw [if_neg (by simpa using hback), hrest]
          constructor
          · rintro ⟨hsorted, hfrom⟩
            exact ⟨⟨hfrom, hsorted⟩, by omega, fun a ha => Nat.le_trans (by omega) (hfrom a ha)⟩
          · rintro ⟨⟨hfrom, hsorted⟩, -⟩
            exact ⟨hsorted, hfrom⟩

variable {p : Permutation} {dims : List Nat}

/-- The axes longer than one come as they are numbered. -/
theorem longAxes_eq (h : isLayoutPreserving dims p.axes = true) :
    (p.axes.filter fun axis => dims.getD axis 0 ≠ 1) =
      (List.range p.axes.length).filter fun axis => dims.getD axis 0 ≠ 1 := by
  rw [isLayoutPreserving, Bool.and_eq_true] at h
  refine (p.rearranged.filter _).eq_of_pairwise' ((keepsOrder_iff none).1 h.2).1 ?_
  exact (List.pairwise_le_range).filter _

theorem length_of_layoutPreserving (h : isLayoutPreserving dims p.axes = true) :
    p.axes.length = dims.length := by
  rw [isLayoutPreserving, Bool.and_eq_true, beq_iff_eq] at h
  exact h.1.symm

/-- Length of an input axis, with the coordinate on the output axis that reads it. -/
def axisEntry (dims axes coords : List Nat) (axis : Nat) : Nat × Nat :=
  (dims.getD axis 0, coords.getD (axes.idxOf axis) 0)

theorem zip_sourceCoordinates {coords : List Nat} (hd : p.axes.length = dims.length) :
    dims.zip (sourceCoordinates p.axes coords) =
      (List.range p.axes.length).map (axisEntry dims p.axes coords) := by
  apply List.ext_getElem (by simp [length_sourceCoordinates, hd])
  intro i h₁ h₂
  have hi : i < dims.length := by simpa [hd] using h₂
  simp [axisEntry, sourceCoordinates, hi]

theorem gatherDims_zip {coords : List Nat} (hlen : coords.length = p.axes.length) :
    (gatherDims dims p.axes).zip coords = p.axes.map (axisEntry dims p.axes coords) := by
  have hread := zipWith_eq_map_idxOf (fun coord axis => (dims.getD axis 0, coord))
    p.nodup_axes hlen
  refine Eq.trans ?_ hread
  apply List.ext_getElem (by simp [length_gatherDims, Nat.min_comm])
  intro i h₁ h₂
  simp [gatherDims]

theorem pairPosition_longAxes {axes coords : List Nat}
    (hc : coords ∈ coordinates (gatherDims dims p.axes)) (haxes : ∀ axis ∈ axes, axis ∈ p.axes) :
    pairPosition (axes.map (axisEntry dims p.axes coords)) = pairPosition
      ((axes.filter fun axis => dims.getD axis 0 ≠ 1).map (axisEntry dims p.axes coords)) := by
  have hlen : coords.length = p.axes.length :=
    (length_of_mem_coordinates hc).trans length_gatherDims
  rw [← pairPosition_filter, List.filter_map]
  · rfl
  · intro e he
    obtain ⟨axis, ha, rfl⟩ := List.mem_map.1 he
    have hmem : axisEntry dims p.axes coords axis ∈ (gatherDims dims p.axes).zip coords :=
      gatherDims_zip hlen ▸ List.mem_map_of_mem (haxes axis ha)
    exact (List.forall₂_iff_zip.1 (mem_coordinates.1 hc).flip).2 hmem

/-- Both positions come from the same entries, those of the long axes in the same order. -/
theorem position_of_layoutPreserving (h : isLayoutPreserving dims p.axes = true)
    {coords : List Nat} (hc : coords ∈ coordinates (gatherDims dims p.axes)) :
    position dims (sourceCoordinates p.axes coords) =
      position (gatherDims dims p.axes) coords := by
  have hd := length_of_layoutPreserving h
  have hlen : coords.length = p.axes.length :=
    (length_of_mem_coordinates hc).trans length_gatherDims
  rw [position_eq_pairPosition (length_sourceCoordinates.trans hd),
    position_eq_pairPosition (hlen.trans length_gatherDims.symm), zip_sourceCoordinates hd,
    gatherDims_zip hlen, pairPosition_longAxes hc (fun _ ha => ha),
    pairPosition_longAxes hc (fun _ ha => p.rearranged.mem_iff.2 ha), longAxes_eq h]

theorem gatherDims_perm (p : Permutation) (h : p.axes.length = dims.length) :
    (gatherDims dims p.axes).Perm dims := by
  have hrange : gatherDims dims (List.range p.axes.length) = dims := by
    apply List.ext_getElem (by simp [length_gatherDims, h])
    intro i h₁ h₂
    simp [gatherDims, h₂]
  have hperm : (gatherDims dims p.axes).Perm (gatherDims dims (List.range p.axes.length)) :=
    p.rearranged.map _
  rwa [hrange] at hperm

theorem volume_perm {dims dims' : List Nat} (h : dims.Perm dims') : volume dims = volume dims' :=
  h.foldr_eq 1

theorem volume_gatherDims (p : Permutation) (h : p.axes.length = dims.length) :
    volume (gatherDims dims p.axes) = volume dims :=
  volume_perm (gatherDims_perm p h)

theorem reordered_of_layoutPreserving (h : isLayoutPreserving dims p.axes = true) {α : Type}
    (default : α) {data : Array α} (hs : data.size = volume dims) :
    reordered default dims p.axes data = data.toList := by
  have hd := length_of_layoutPreserving h
  rw [← map_getD_coordinates default (hs.trans (volume_gatherDims p hd).symm), reordered]
  apply List.map_congr_left
  intro coords hc
  rw [position_of_layoutPreserving h hc]

end LayoutPreserving

end LayerGraph
