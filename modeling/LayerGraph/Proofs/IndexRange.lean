import LayerGraph.Tensor.Bounded
import LayerGraph.Proofs.Gathering

/-!
# Indexes stay in range

The dimensions of a shape leave no room for an overflow: each product on the way is a factor of
the element count, and each sum on the way is part of a position below it. So the bounded
arithmetic of the layout always gives its numbers, and they are those of the unbounded one. The
table it makes lists every position once, and a gather finds an element at each of them.
-/

set_option autoImplicit false

namespace LayerGraph

open Permutation (gatherDims)

theorem mapM_eq_some_map {α β : Type} {f : α → Option β} {g : α → β} {l : List α}
    (h : ∀ a ∈ l, f a = some (g a)) : l.mapM f = some (l.map g) := by
  induction l with
  | nil => rfl
  | cons a l ih =>
    obtain ⟨ha, hl⟩ := List.forall_mem_cons.1 h
    simp [List.mapM_cons, ha, ih hl]

namespace Bounded

variable {dims source : List Nat}

theorem index?_of_lt {n : Nat} (h : n < indexLimit) : index? n = some n := if_pos h

theorem divMod?_of_pos {divisor : Nat} (h : 0 < divisor) (n : Nat) :
    divMod? n divisor = some (n / divisor, n % divisor) :=
  if_neg (Nat.ne_of_gt h)

/-- A product on the way to the last one is no larger, as the factors to come are not zero. -/
theorem foldlM_count (hpos : ∀ d ∈ dims, 0 < d) (count : Nat)
    (hlt : count * volume dims < indexLimit) :
    dims.foldlM (fun count dim => index? (count * dim)) count = some (count * volume dims) := by
  induction dims generalizing count with
  | nil => simp
  | cons dim rest ih =>
    obtain ⟨-, hrest⟩ := List.forall_mem_cons.1 hpos
    rw [volume_cons, ← Nat.mul_assoc] at hlt ⊢
    have hstep : count * dim ≤ count * dim * volume rest :=
      Nat.le_mul_of_pos_right _ (Shape.volume_pos hrest)
    rw [List.foldlM_cons, index?_of_lt (Nat.lt_of_le_of_lt hstep hlt)]
    exact ih hrest _ hlt

theorem count?_eq (hpos : ∀ d ∈ dims, 0 < d) (hlt : volume dims < indexLimit) :
    count? dims = some (volume dims) := by
  simpa [count?] using foldlM_count hpos 1 (by simpa using hlt)

example : count? [4294967296, 4294967296] = none := by decide

theorem scanStrides?_eq (hpos : ∀ d ∈ dims, 0 < d) (hlt : volume dims < indexLimit) :
    scanStrides? dims = some (strides dims, volume dims) := by
  induction dims with
  | nil => rfl
  | cons dim rest ih =>
    obtain ⟨hdim, hrest⟩ := List.forall_mem_cons.1 hpos
    rw [volume_cons, Nat.mul_comm] at hlt ⊢
    have hstep : volume rest ≤ volume rest * dim := Nat.le_mul_of_pos_right _ hdim
    rw [scanStrides?, ih hrest (Nat.lt_of_le_of_lt hstep hlt), Option.bind_some,
      index?_of_lt hlt]
    rfl

theorem strides?_eq (hpos : ∀ d ∈ dims, 0 < d) (hlt : volume dims < indexLimit) :
    strides? dims = some (strides dims) := by
  rw [strides?, scanStrides?_eq hpos hlt, Option.map_some]

theorem splitIndex?_eq (hpos : ∀ d ∈ dims, 0 < d) (index : Nat) :
    splitIndex? dims index = some (splitIndex dims index) := by
  induction dims with
  | nil => rfl
  | cons dim rest ih =>
    obtain ⟨hdim, hrest⟩ := List.forall_mem_cons.1 hpos
    rw [splitIndex?, ih hrest, Option.bind_some, divMod?_of_pos hdim]
    rfl

theorem unravel?_eq (hpos : ∀ d ∈ dims, 0 < d) (index : Nat) :
    unravel? dims index = some (unravel dims index) := by
  rw [unravel?, splitIndex?_eq hpos, Option.map_some, unravel]

/-- A sum on the way to the last one is no larger, and neither is a step that it adds. -/
theorem foldlM_sourceIndex {inputStrides coords : List Nat}
    (haxes : ∀ axis ∈ source, axis < inputStrides.length) (total : Nat)
    (hlt : total + sourceIndex inputStrides source coords < indexLimit) :
    (coords.zip source).foldlM (fun total entry =>
      inputStrides[entry.2]?.bind fun stride =>
        (index? (entry.1 * stride)).bind fun step => index? (total + step)) total =
      some (total + sourceIndex inputStrides source coords) := by
  induction source generalizing coords total with
  | nil => simp [sourceIndex]
  | cons axis source ih =>
    cases coords with
    | nil => simp [sourceIndex]
    | cons coord coords =>
      obtain ⟨haxis, hrest⟩ := List.forall_mem_cons.1 haxes
      have hcons : sourceIndex inputStrides (axis :: source) (coord :: coords) =
          coord * inputStrides[axis] + sourceIndex inputStrides source coords := by
        simp [sourceIndex, haxis]
      rw [hcons, ← Nat.add_assoc] at hlt ⊢
      have hsum : total + coord * inputStrides[axis] < indexLimit := by omega
      have hstep : coord * inputStrides[axis] < indexLimit := by omega
      rw [List.zip_cons_cons, List.foldlM_cons, List.getElem?_eq_getElem haxis, Option.bind_some,
        index?_of_lt hstep, Option.bind_some, index?_of_lt hsum]
      exact ih hrest _ hlt

theorem sourceIndex?_eq {inputStrides coords : List Nat}
    (haxes : ∀ axis ∈ source, axis < inputStrides.length)
    (hlt : sourceIndex inputStrides source coords < indexLimit) :
    sourceIndex? inputStrides source coords = some (sourceIndex inputStrides source coords) := by
  simpa [sourceIndex?] using foldlM_sourceIndex haxes 0 (by simpa using hlt)

end Bounded

section Table

variable {p : Permutation} {dims : List Nat} {i : Nat}

theorem Permutation.cancel_inverse (p : Permutation) : Cancel p.inverse p :=
  ⟨p.length_inverse, fun _ _ h => getElem?_inverse_iff.2 h⟩

theorem Permutation.cancel_inverse_right (p : Permutation) : Cancel p p.inverse :=
  ⟨p.length_inverse.symm, fun _ _ h => getElem?_inverse_iff.1 h⟩

theorem nodup_coordinates (dims : List Nat) : (coordinates dims).Nodup := by
  apply List.Nodup.of_map (position dims)
  rw [map_position_coordinates]
  exact List.nodup_range

theorem lt_of_mem_gatherTable (hd : p.axes.length = dims.length)
    (h : i ∈ gatherTable dims p.axes) : i < volume dims := by
  rw [gatherTable_eq p.rearranged hd] at h
  obtain ⟨coords, hcoords, rfl⟩ := List.mem_map.1 h
  exact position_lt (sourceCoordinates_mem hd hcoords)

/-- Coordinates are found again from the position they read: it is that of coordinates which,
read through the inverse, are the first ones. -/
theorem nodup_gatherTable (hd : p.axes.length = dims.length) :
    (gatherTable dims p.axes).Nodup := by
  rw [gatherTable_eq p.rearranged hd]
  apply List.Nodup.map_on _ (nodup_coordinates _)
  intro x hx y hy h
  have hlength : ∀ coords ∈ coordinates (gatherDims dims p.axes),
      coords.length = p.inverse.axes.length := fun coords hcoords => by
    rw [length_of_mem_coordinates hcoords, length_gatherDims, p.length_inverse]
  have hsource : sourceCoordinates p.axes x = sourceCoordinates p.axes y := by
    rw [← unravel_position (sourceCoordinates_mem hd hx), h,
      unravel_position (sourceCoordinates_mem hd hy)]
  rw [← p.cancel_inverse.sourceCoordinates_eq (hlength x hx), hsource,
    p.cancel_inverse.sourceCoordinates_eq (hlength y hy)]

theorem gatherTable_perm (hd : p.axes.length = dims.length) :
    (gatherTable dims p.axes).Perm (List.range (volume dims)) := by
  have hlength : (gatherTable dims p.axes).length = volume dims := by
    rw [length_gatherTable, volume_gatherDims p hd]
  rw [← hlength]
  exact Permutation.perm_range_of_nodup (nodup_gatherTable hd)
    fun i hi => hlength ▸ lt_of_mem_gatherTable hd hi

end Table

namespace Bounded

variable {s : Shape} {p : Permutation}

theorem gatherTable?_eq (hd : p.axes.length = s.dims.length) :
    gatherTable? s.dims p.axes = some (gatherTable s.dims p.axes) := by
  obtain ⟨out, hout⟩ := p.exists_gathered hd
  have hdims : (p.axes.mapM fun axis => s.dims[axis]?) = some out.dims := by
    rw [← hout, gatherDims]
    apply mapM_eq_some_map
    intro axis haxis
    have hlt : axis < s.dims.length := hd ▸ (p.mem_axes_iff axis).1 haxis
    simp [hlt]
  have haxes : ∀ axis ∈ p.axes, axis < (strides s.dims).length := by
    intro axis haxis
    rw [length_strides, ← hd]
    exact (p.mem_axes_iff axis).1 haxis
  rw [gatherTable?, hdims, Option.bind_some, strides?_eq s.dims_pos s.volume_lt, Option.bind_some,
    count?_eq out.dims_pos out.volume_lt, Option.bind_some, gatherTable, hout]
  apply mapM_eq_some_map
  intro index hindex
  -- the sum is an entry of the table, and so a position of the input
  have hlt : sourceIndex (strides s.dims) p.axes (unravel out.dims index) < volume s.dims := by
    apply lt_of_mem_gatherTable hd
    rw [gatherTable, hout]
    exact List.mem_map_of_mem hindex
  rw [unravel?_eq out.dims_pos, Option.bind_some,
    sourceIndex?_eq haxes (Nat.lt_trans hlt s.volume_lt)]

theorem gathered?_eq {st : Storage} {table : List Nat} {input : Elements st}
    (h : ∀ i ∈ table, i < input.size) :
    gathered? table input = some (Kernel.gathered table input).toList := by
  rw [gathered?, Kernel.gathered, List.toList_toArray]
  apply mapM_eq_some_map
  intro i hi
  simp [Array.getD, h i hi]

end Bounded

/-- Reading `count` elements with some dimensions through the axes `source` stays in range: the
bounded arithmetic gives every number, the table lists every position once, and whenever a gather
goes through, each of its reads has an element. -/
structure InRange (dims source : List Nat) (count : Nat) : Prop where
  strides_eq : Bounded.strides? dims = some (strides dims)
  count_eq : Bounded.count? (gatherDims dims source) = some count
  unravel_eq : ∀ index, Bounded.unravel? (gatherDims dims source) index =
    some (unravel (gatherDims dims source) index)
  table_eq : Bounded.gatherTable? dims source = some (gatherTable dims source)
  entry_lt : ∀ i ∈ gatherTable dims source, i < count
  nodup : (gatherTable dims source).Nodup
  bijective : (gatherTable dims source).Perm (List.range count)
  takes : ∀ (st : Storage) (input : Elements st), input.size = count →
    ∃ output, Kernel.gather (gatherTable dims source) input count = .ok output
  reads : ∀ (st : Storage) (input : Elements st) (room : Nat) (output : ElementsOf st room),
    Kernel.gather (gatherTable dims source) input room = .ok output →
      Bounded.gathered? (gatherTable dims source) input = some output.1.toList

/-- No index leaves its range, whatever shape is reordered by whatever permutation of its axes. -/
theorem gatherTable_inRange {dims : List Nat} {s : Shape} (hs : Shape.ofDims dims = .ok s)
    (p : Permutation) (hp : p.length = s.rank) : InRange dims p.axes s.numElements := by
  obtain rfl := Shape.ofDims_eq_ok_iff.1 hs
  have hd : p.axes.length = s.dims.length := hp
  obtain ⟨out, hout⟩ := p.exists_gathered hd
  have hcount : volume out.dims = s.numElements := by
    rw [← hout, volume_gatherDims p hd, Shape.numElements]
  have hlength : (gatherTable s.dims p.axes).length = s.numElements := by
    rw [length_gatherTable, hout, hcount]
  refine ⟨Bounded.strides?_eq s.dims_pos s.volume_lt, ?_, fun index => ?_,
    Bounded.gatherTable?_eq hd, fun i hi => lt_of_mem_gatherTable hd hi, nodup_gatherTable hd,
    gatherTable_perm hd, fun st input hinput => ?_, fun st input room output hgather => ?_⟩
  · rw [hout, Bounded.count?_eq out.dims_pos out.volume_lt, hcount]
  · rw [hout, Bounded.unravel?_eq out.dims_pos]
  · exact ⟨_, dif_pos ⟨hinput.trans hlength.symm, hlength.symm⟩⟩
  · rw [Kernel.gather] at hgather
    split at hgather
    · rename_i hsizes
      cases hgather
      refine Bounded.gathered?_eq fun i hi => ?_
      rw [hsizes.1, hlength]
      exact lt_of_mem_gatherTable hd hi
    · cases hgather

/-- The largest element count there is, with no room left. -/
theorem gatherTable_inRange_largest : ∃ (s : Shape) (p : Permutation),
    Shape.ofDims [4294967295, 4294967297] = .ok s ∧ p.length = s.rank ∧ p.axes = [1, 0] ∧
      s.numElements = indexLimit - 1 ∧
      InRange [4294967295, 4294967297] [1, 0] (indexLimit - 1) := by
  let s : Shape := ⟨[4294967295, 4294967297], by decide, by decide, by decide⟩
  have hs : Shape.ofDims [4294967295, 4294967297] = .ok s := Shape.ofDims_eq_ok_iff.2 rfl
  have hcount : s.numElements = indexLimit - 1 := by decide
  have hrange := gatherTable_inRange hs Network.swap (by decide)
  exact ⟨s, Network.swap, hs, by decide, rfl, hcount, hcount ▸ hrange⟩

end LayerGraph
