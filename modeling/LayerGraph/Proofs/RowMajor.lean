import LayerGraph.Backend.Kernel
import LayerGraph.Tensor.Coordinates
import Mathlib.Data.List.Forall2
import Mathlib.Data.List.Perm.Basic

/-!
# Positions and coordinates

Coordinates in row-major order stand at the positions counted from zero. A gather table
lists positions by strides, and reads what the coordinates say is to be read.
-/

set_option autoImplicit false

namespace LayerGraph

theorem range_mul_eq_flatMap (m n : Nat) :
    List.range (m * n) = (List.range m).flatMap fun i => (List.range n).map (i * n + ·) := by
  induction m with
  | zero => simp
  | succ m ih => rw [Nat.succ_mul, List.range_add, ih, List.range_succ, List.flatMap_append]; simp

theorem mem_coordinates {dims coords : List Nat} :
    coords ∈ coordinates dims ↔ List.Forall₂ (· < ·) coords dims := by
  induction dims generalizing coords with
  | nil => cases coords <;> simp [coordinates]
  | cons dim rest ih =>
    cases coords with
    | nil => simp [coordinates]
    | cons coord coords => simp [coordinates, ih, List.forall₂_cons]

theorem map_position_coordinates (dims : List Nat) :
    (coordinates dims).map (position dims) = List.range (volume dims) := by
  induction dims with
  | nil => simp [coordinates, position]
  | cons dim rest ih =>
    rw [volume_cons, range_mul_eq_flatMap, coordinates, List.map_flatMap]
    congr 1
    funext i
    rw [← ih, List.map_map, List.map_map]
    rfl

theorem length_coordinates (dims : List Nat) : (coordinates dims).length = volume dims := by
  simpa using congrArg List.length (map_position_coordinates dims)

theorem getElem?_coordinates {dims coords : List Nat} (h : coords ∈ coordinates dims) :
    (coordinates dims)[position dims coords]? = some coords := by
  obtain ⟨i, hi⟩ := List.mem_iff_getElem?.1 h
  have hlt : i < volume dims := by
    rw [← length_coordinates]
    exact (List.getElem?_eq_some_iff.1 hi).1
  have hpos : some (position dims coords) = some i := by
    rw [← Option.map_some, ← hi, ← List.getElem?_map, map_position_coordinates,
      List.getElem?_range hlt]
  rw [Option.some.inj hpos, hi]

theorem position_lt {dims coords : List Nat} (h : coords ∈ coordinates dims) :
    position dims coords < volume dims := by
  rw [← length_coordinates]
  exact (List.getElem?_eq_some_iff.1 (getElem?_coordinates h)).1

/-- Reading every position in turn is reading everything. -/
theorem map_getD_coordinates {α : Type} (default : α) {dims : List Nat} {data : Array α}
    (h : data.size = volume dims) :
    ((coordinates dims).map fun coords => data.getD (position dims coords) default) =
      data.toList := by
  have hcomp : (fun coords => data.getD (position dims coords) default) =
      (fun i => data.getD i default) ∘ position dims := rfl
  rw [hcomp, ← List.map_map, map_position_coordinates, ← h]
  apply List.ext_getElem (by simp)
  intro i h₁ h₂
  simp [Array.getD, show i < data.size by simpa using h₂]

section Unravel

theorem splitIndex_left (dims : List Nat) (index : Nat) :
    (splitIndex dims index).2 = index / volume dims := by
  induction dims with
  | nil => simp [splitIndex]
  | cons dim rest ih =>
    rw [splitIndex, volume_cons, Nat.mul_comm, ← Nat.div_div_eq_div_mul, ← ih]

theorem unravel_cons (dim : Nat) (rest : List Nat) (index : Nat) :
    unravel (dim :: rest) index = index / volume rest % dim :: unravel rest index := by
  rw [unravel, splitIndex, ← splitIndex_left]
  rfl

/-- Coordinates repeat after every full run through the positions. -/
theorem unravel_mul_add (dims : List Nat) (k index : Nat) :
    unravel dims (k * volume dims + index) = unravel dims index := by
  induction dims generalizing k with
  | nil => rfl
  | cons dim rest ih =>
    rw [unravel_cons, unravel_cons, volume_cons, ← Nat.mul_assoc, ih]
    congr 1
    rcases Nat.eq_zero_or_pos (volume rest) with hz | hp
    · simp [hz]
    · rw [Nat.add_comm, Nat.add_mul_div_right _ _ hp, Nat.add_mul_mod_self_right]

theorem unravel_position {dims coords : List Nat} (h : coords ∈ coordinates dims) :
    unravel dims (position dims coords) = coords := by
  induction dims generalizing coords with
  | nil => simp_all [coordinates, unravel, splitIndex]
  | cons dim rest ih =>
    obtain _ | ⟨hlt, hrest⟩ := mem_coordinates.1 h
    rename_i coord coords
    have hrest := mem_coordinates.2 hrest
    have hpos := position_lt hrest
    rw [position, unravel_cons, unravel_mul_add, ih hrest, Nat.add_comm,
      Nat.add_mul_div_right _ _ (by omega), Nat.div_eq_of_lt hpos, Nat.zero_add,
      Nat.mod_eq_of_lt hlt]

theorem map_unravel_range (dims : List Nat) :
    (List.range (volume dims)).map (unravel dims) = coordinates dims := by
  rw [← map_position_coordinates, List.map_map]
  exact (List.map_congr_left fun coords h => unravel_position h).trans (List.map_id _)

end Unravel

theorem length_strides (dims : List Nat) : (strides dims).length = dims.length := by
  induction dims with
  | nil => rfl
  | cons dim rest ih => simp [strides, ih]

theorem position_eq_foldr (dims coords : List Nat) :
    position dims coords = (coords.zipWith (· * ·) (strides dims)).foldr (· + ·) 0 := by
  induction dims generalizing coords with
  | nil => simp [position, strides]
  | cons dim rest ih =>
    cases coords with
    | nil => simp [position]
    | cons coord coords => simp [position, strides, ih]

/-- Walking two rows side by side is walking one and looking the other up by place. -/
theorem zipWith_eq_map_idxOf {α : Type} (h : Nat → Nat → α) {source coords : List Nat}
    (hn : source.Nodup) (hl : coords.length = source.length) :
    coords.zipWith h source =
      source.map fun axis => h (coords.getD (source.idxOf axis) 0) axis := by
  apply List.ext_getElem (by simp [hl])
  intro i h₁ h₂
  simp only [List.length_map] at h₂
  simp [hn.idxOf_getElem i h₂, List.getD_eq_getElem?_getD, hl ▸ h₂]

section Gather

variable {dims source : List Nat}

/-- Strides read through the axes of the output lead to the position that the
coordinates on the axes of the input have. -/
theorem sourceIndex_eq_position (hp : source.Perm (List.range source.length))
    (hd : source.length = dims.length) {coords : List Nat} (hc : coords.length = source.length) :
    sourceIndex (strides dims) source coords = position dims (sourceCoordinates source coords) := by
  have hn : source.Nodup := hp.nodup_iff.2 List.nodup_range
  rw [sourceIndex, zipWith_eq_map_idxOf _ hn hc, (hp.map _).foldr_eq, position_eq_foldr,
    sourceCoordinates]
  congr 1
  apply List.ext_getElem (by simp [length_strides, hd])
  intro i h₁ h₂
  have hi : i < (strides dims).length := by simpa [length_strides, hd] using h₁
  simp [List.getD_eq_getElem?_getD, hi]

theorem length_gatherDims : (Permutation.gatherDims dims source).length = source.length := by
  simp [Permutation.gatherDims]

theorem length_of_mem_coordinates {coords : List Nat} (h : coords ∈ coordinates dims) :
    coords.length = dims.length :=
  (mem_coordinates.1 h).length_eq

theorem gatherTable_eq (hp : source.Perm (List.range source.length))
    (hd : source.length = dims.length) :
    gatherTable dims source = (coordinates (Permutation.gatherDims dims source)).map fun coords =>
      position dims (sourceCoordinates source coords) := by
  rw [gatherTable, ← map_unravel_range, List.map_map]
  apply List.map_congr_left
  intro index hindex
  have hmem : unravel (Permutation.gatherDims dims source) index ∈
      coordinates (Permutation.gatherDims dims source) := by
    rw [← map_unravel_range]
    exact List.mem_map_of_mem hindex
  exact sourceIndex_eq_position hp hd ((length_of_mem_coordinates hmem).trans length_gatherDims)

theorem gathered_gatherTable {s : Storage} (hp : source.Perm (List.range source.length))
    (hd : source.length = dims.length) (data : Elements s) :
    Kernel.gathered (gatherTable dims source) data = (reordered 0 dims source data).toArray := by
  rw [Kernel.gathered, gatherTable_eq hp hd, List.map_map]
  rfl

theorem length_gatherTable : (gatherTable dims source).length =
    volume (Permutation.gatherDims dims source) := by
  simp [gatherTable]

theorem length_reordered {α : Type} (default : α) (data : Array α) :
    (reordered default dims source data).length = volume (Permutation.gatherDims dims source) := by
  simp [reordered, length_coordinates]

end Gather

end LayerGraph
