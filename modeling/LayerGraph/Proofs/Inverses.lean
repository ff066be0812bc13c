import LayerGraph.Tensor.Marking
import LayerGraph.Proofs.Drafts

/-!
# Inverse permutations

A list of axes is accepted when one pass finds none out of range and none twice, and that makes
it a rearrangement of all axes. So the positions written at them leave no gap, and are the inverse
permutation. Reordered by a permutation and then by its inverse, elements are back in place.
-/

set_option autoImplicit false

namespace LayerGraph

open Permutation (gatherDims)

namespace Permutation

section Marks

variable {bound : Nat} {seen axes : List Nat} {marks : List Bool}

/-- A table with a place for every axis below the bound, in which those seen are marked. -/
def Marks (bound : Nat) (seen : List Nat) (marks : List Bool) : Prop :=
  ∀ axis : Nat, marks[axis]? = some false ↔ axis < bound ∧ axis ∉ seen

theorem marks_replicate (bound : Nat) : Marks bound [] (List.replicate bound false) := by
  intro axis
  simp [List.getElem?_replicate]

theorem Marks.set (h : Marks bound seen marks) (axis : Nat) :
    Marks bound (axis :: seen) (marks.set axis true) := by
  intro other
  by_cases hother : other = axis
  · subst hother
    simp [List.getElem?_set]
  · rw [List.getElem?_set_ne (Ne.symm hother), h other]
    simp [hother]

/-- Marking goes through where the axes are distinct and in range. -/
theorem Marks.isSome_foldlM (h : Marks bound seen marks) :
    (axes.foldlM mark? marks).isSome = distinctBelow bound seen axes := by
  induction axes generalizing seen marks with
  | nil => rfl
  | cons axis rest ih =>
    rw [List.foldlM_cons, mark?, distinctBelow]
    by_cases hfree : axis < bound ∧ axis ∉ seen
    · rw [if_pos ((h axis).2 hfree), ← ih (h.set axis)]
      simp [hfree]
    · rw [if_neg (mt (h axis).1 hfree)]
      simp only [not_and_or, not_not] at hfree
      rcases hfree with hout | hseen
      · simp [hout]
      · simp [hseen]

theorem isSome_marked? (axes : List Nat) : (marked? axes).isSome = (ofAxes? axes).isSome := by
  rw [marked?, (marks_replicate _).isSome_foldlM, ofAxes?]
  split
  · rename_i h
    exact h
  · rename_i h
    simpa using h

end Marks

theorem exists_ofAxes?_iff {axes : List Nat} :
    (∃ p, ofAxes? axes = some p) ↔ axes.Perm (List.range axes.length) := by
  simp only [ofAxes?_eq_some_iff, eq_comm (a := axes)]
  exact isPermutation_iff.symm

/-- Written at their axes, the positions are the inverse. -/
theorem written_axes (p : Permutation) : written p.axes = p.inverse.axes := by
  rw [written, scatterDims_eq List.length_range, gatherDims]
  refine (List.map_congr_left fun i hi => ?_).trans (List.map_id _)
  have hlt : i < p.axes.length := p.length_inverse ▸ (p.inverse.mem_axes_iff i).1 hi
  simp [hlt]

theorem inverse_at_axis (p : Permutation) {i : Nat} (hi : i < p.axes.length) :
    (p.axes[i]?.bind fun axis => p.inverse.axes[axis]?) = some i := by
  rw [List.getElem?_eq_getElem hi, Option.bind_some, getElem?_inverse_iff,
    List.getElem?_eq_getElem hi]

theorem axis_at_inverse (p : Permutation) {i : Nat} (hi : i < p.axes.length) :
    (p.inverse.axes[i]?.bind fun axis => p.axes[axis]?) = some i := by
  have hback := p.inverse.inverse_at_axis (i := i) (by rwa [length_inverse])
  rwa [inverse_inverse] at hback

/-- A list makes a permutation exactly when it rearranges the numbers below its length, and that
is when all of it can be marked. The positions written without a check are again accepted, as
the inverse: it and the permutation take each other's axes back, and its inverse is the
permutation. -/
theorem ofAxes?_exact (axes : List Nat) :
    ((∃ p, ofAxes? axes = some p) ↔ axes.Perm (List.range axes.length)) ∧
    ((∃ p, ofAxes? axes = some p) ↔ ∃ marks, marked? axes = some marks) ∧
    ∀ p, ofAxes? axes = some p → p.axes = axes ∧ p.inverse.axes = written axes ∧
      ofAxes? (written axes) = some p.inverse ∧
      (∀ i < axes.length, (axes[i]?.bind fun axis => p.inverse.axes[axis]?) = some i ∧
        (p.inverse.axes[i]?.bind fun axis => axes[axis]?) = some i) ∧
      p.inverse.inverse = p := by
  refine ⟨exists_ofAxes?_iff, ?_, fun p hp => ?_⟩
  · rw [← Option.isSome_iff_exists, ← Option.isSome_iff_exists, isSome_marked?]
  · obtain rfl := ofAxes?_eq_some_iff.1 hp
    exact ⟨rfl, p.written_axes.symm, p.written_axes ▸ p.inverse.ofAxes?_axes,
      fun i hi => ⟨p.inverse_at_axis hi, p.axis_at_inverse hi⟩, p.inverse_inverse⟩

theorem ofAxes?_exact_rolled :
    (∃ p, ofAxes? [0, 3, 1, 2] = some p ∧ p.inverse.axes = [0, 2, 3, 1] ∧
      p.inverse.inverse = p) ∧
    ofAxes? [0, 0, 1] = none ∧ marked? [0, 3] = none := by
  have hrolled := ofAxes?_exact [0, 3, 1, 2]
  have htwice := ofAxes?_exact [0, 0, 1]
  have hfar := ofAxes?_exact [0, 3]
  obtain ⟨p, hp⟩ := hrolled.1.2 (by decide)
  obtain ⟨-, hinverse, -, -, hback⟩ := hrolled.2.2 p hp
  refine ⟨⟨p, hp, hinverse, hback⟩, ?_, ?_⟩
  · exact Option.eq_none_iff_forall_ne_some.2 fun q hq => absurd (htwice.1.1 ⟨q, hq⟩) (by decide)
  · refine Option.eq_none_iff_forall_ne_some.2 fun marks hmarks => ?_
    exact absurd (hfar.1.1 (hfar.2.1.2 ⟨marks, hmarks⟩)) (by decide)

end Permutation

/-- Whatever a first table gathers from a row of elements, of any type, a second one gathers back.
Every read of both finds an element. -/
def GathersBack (count : Nat) (first second : List Nat) : Prop :=
  ∀ (α : Type) (row : Array α), row.size = count → ∃ moved : List α,
    Bounded.gathered? first row = some moved ∧
      Bounded.gathered? second moved.toArray = some row.toList

section Data

variable {first second : Permutation} {dims : List Nat}

theorem gathered?_gatherTable {α : Type} (default : α) {p : Permutation} {row : Array α}
    (hd : p.axes.length = dims.length) (hrow : row.size = volume dims) :
    Bounded.gathered? (gatherTable dims p.axes) row = some (reordered default dims p.axes row) := by
  have hreads : ∀ i ∈ gatherTable dims p.axes, row[i]? = some (row.getD i default) := by
    intro i hi
    have hlt : i < row.size := hrow ▸ lt_of_mem_gatherTable hd hi
    simp [Array.getD, hlt]
  rw [Bounded.gathered?, mapM_eq_some_map hreads, gatherTable_eq p.rearranged hd, List.map_map]
  rfl

theorem Cancel.gathersBack (h : Cancel first second) (hd : first.axes.length = dims.length)
    (hpos : 0 < volume dims) : GathersBack (volume dims) (gatherTable dims first.axes)
      (gatherTable (gatherDims dims first.axes) second.axes) := by
  intro α row hrow
  have hzero : 0 < row.size := hrow ▸ hpos
  have hmid : second.axes.length = (gatherDims dims first.axes).length := by
    rw [length_gatherDims, h.length_eq]
  have hmoved : (reordered row[0] dims first.axes row).toArray.size =
      volume (gatherDims dims first.axes) := by
    rw [List.size_toArray, length_reordered]
  refine ⟨reordered row[0] dims first.axes row, gathered?_gatherTable _ hd hrow, ?_⟩
  rw [gathered?_gatherTable row[0] hmid hmoved, h.reordered_eq hd.symm row[0] hrow]

end Data

/-- Workloads for two operations give back what they are given, one run after the other: the
first is built from tensors of a shape to tensors of another one, the second from these to the
shape before. -/
def Operation.TakenBackBy (forth back : Operation) (s out : Shape) : Prop :=
  ∀ (t : DataType) (n m : NodeId) (name again : String) (i j k l : SlotRef) (a b c : Descriptor),
    a.shape = s → b.shape = out → c.shape = s → a.dataType = t → b.dataType = t →
    c.dataType = t → ∃ v w,
      Reference.reordering forth.kind t ⟨n, name, forth, [⟨i, a⟩], [⟨j, b⟩]⟩ = .ok v ∧
      Reference.reordering back.kind t ⟨m, again, back, [⟨k, b⟩], [⟨l, c⟩]⟩ = .ok w ∧
      ∀ memory room last : Memory, memory.extent = a.extent → room.extent = b.extent →
        last.extent = c.extent → ∃ moved, v.run [memory] [room] = ⟨[moved], .ok ()⟩ ∧
          w.run [moved] [last] = ⟨[memory], .ok ()⟩

section Workloads

variable {forth back : Operation} {q : Permutation} {s out : Shape}

/-- The dimensions read through a permutation are read back through its inverse. -/
theorem Permutation.gatherDims_inverse (hr : q.axes.length = s.dims.length)
    (hout : gatherDims s.dims q.axes = out.dims) :
    q.inverse.axes.length = out.dims.length ∧ gatherDims out.dims q.inverse.axes = s.dims := by
  rw [← hout]
  exact ⟨q.length_inverse.trans length_gatherDims.symm,
    q.cancel_inverse_right.gatherDims_eq hr.symm⟩

/-- A workload that reorders axes is built for tensors that the operation takes, and leaves memory
reordered and of the extent of the output. -/
theorem exists_reorders (spec : WorkloadSpec) {t : DataType} {i o : SlotRef} {a b : Descriptor}
    (hq : spec.operation.reading? = some q) (hin : spec.inputs = [⟨i, a⟩])
    (hout : spec.outputs = [⟨o, b⟩]) (htakes : spec.operation.Takes [a] b) (hb : b.dataType = t) :
    ∃ w, Reference.reordering spec.operation.kind t spec = .ok w ∧
      ∀ memory room : Memory, memory.extent = a.extent → room.extent = b.extent →
        (memory.reorder a.shape.dims q.axes).extent = b.extent ∧
        w.run [memory] [room] = ⟨[memory.reorder a.shape.dims q.axes], .ok ()⟩ := by
  subst hb
  let w := Reference.unary spec.operation.kind b.dataType spec
    (Kernel.gather (gatherTable a.shape.dims q.axes))
  have hw := (Reference.reordering_eq_ok_iff (w := w) rfl hq).2
    ⟨i, o, a, b, hin, hout, htakes, rfl, rfl⟩
  refine ⟨w, hw, fun memory room hmemory hroom => ?_⟩
  have hrun : w.run [memory] [room] = _ := Reference.run_gather hq htakes hmemory hroom
  have hextent := w.extents_run [memory] [room]
  rw [hrun, List.map_singleton, List.map_singleton, List.singleton_inj] at hextent
  exact ⟨hextent.trans hroom, hrun⟩

theorem Operation.takenBackBy_of_reading (hforth : forth.reading? = some q)
    (hback : back.reading? = some q.inverse) (hr : q.axes.length = s.dims.length)
    (hout : gatherDims s.dims q.axes = out.dims) : forth.TakenBackBy back s out := by
  rintro t n m name again i j k l a b c rfl rfl hshape ha hb hc
  obtain ⟨hrank, hdims⟩ := Permutation.gatherDims_inverse hr hout
  obtain ⟨v, hv, hmove⟩ := exists_reorders ⟨n, name, forth, [⟨i, a⟩], [⟨j, b⟩]⟩ hforth rfl rfl
    ((takes_iff_of_reading hforth).2 ⟨hr, hout, ha.trans hb.symm⟩) hb
  obtain ⟨w, hw, htake⟩ := exists_reorders ⟨m, again, back, [⟨k, b⟩], [⟨l, c⟩]⟩ hback rfl rfl
    ((takes_iff_of_reading hback).2 ⟨hrank, hshape ▸ hdims, hb.trans hc.symm⟩) hc
  refine ⟨v, w, hv, hw, fun memory room last hmemory hroom hlast => ?_⟩
  obtain ⟨hmoved, hrun⟩ := hmove memory room hmemory hroom
  have hsize : memory.size = volume a.shape.dims := congrArg Extent.size hmemory
  have hreturn := (htake _ last hmoved hlast).2
  rw [← hout, Memory.reorder_reorder q.cancel_inverse_right hr.symm hsize] at hreturn
  exact ⟨_, hrun, hreturn⟩

end Workloads

/-- Reading axes through a permutation and then through its inverse goes to another shape and
back, and so do the elements. -/
theorem Permutation.exists_gathered_back {s : Shape} (q : Permutation)
    (hr : q.axes.length = s.dims.length) : ∃ out : Shape, gatherDims s.dims q.axes = out.dims ∧
      q.transposeShape? s = some (.ok out) ∧ q.inverse.transposeShape? out = some (.ok s) ∧
      GathersBack s.numElements (gatherTable s.dims q.axes)
        (gatherTable out.dims q.inverse.axes) := by
  obtain ⟨out, hout⟩ := q.exists_gathered hr
  have hgathers := q.cancel_inverse_right.gathersBack hr (Shape.volume_pos s.dims_pos)
  rw [hout] at hgathers
  exact ⟨out, hout, transposeShape?_eq_some_iff.2 ⟨hr, hout⟩,
    transposeShape?_eq_some_iff.2 (gatherDims_inverse hr hout), hgathers⟩

/-- A reordering is undone by the inverse one. For transposes by a permutation and its inverse,
and for permutes, the shape inferred from the shape inferred is the one before, the second table
gathers back what the first gathers, and two workloads in a row return what they are given. -/
theorem inverse_takes_back (s : Shape) (p : Permutation) (hr : p.length = s.rank) :
    (∃ out, p.transposeShape? s = some (.ok out) ∧ p.inverse.transposeShape? out = some (.ok s) ∧
      GathersBack s.numElements (gatherTable s.dims p.axes)
        (gatherTable out.dims p.inverse.axes) ∧
      (Operation.transpose p).TakenBackBy (.transpose p.inverse) s out) ∧
    ∃ out, p.permuteShape? s = some (.ok out) ∧ p.inverse.permuteShape? out = some (.ok s) ∧
      GathersBack s.numElements (gatherTable s.dims p.inverse.axes)
        (gatherTable out.dims p.inverse.inverse.axes) ∧
      (Operation.permute p).TakenBackBy (.permute p.inverse) s out := by
  -- a permute reads through the inverse, and the permute after it through the inverse of that
  have hr' : p.inverse.axes.length = s.dims.length := p.length_inverse.trans hr
  obtain ⟨out, hout, hto, hfrom, hgathers⟩ := p.exists_gathered_back hr
  obtain ⟨out', hout', hto', hfrom', hgathers'⟩ := p.inverse.exists_gathered_back hr'
  refine ⟨⟨out, hto, hfrom, hgathers, Operation.takenBackBy_of_reading rfl rfl hr hout⟩, out', ?_⟩
  rw [p.permuteShape?_eq, p.inverse.permuteShape?_eq]
  exact ⟨hto', hfrom', hgathers', Operation.takenBackBy_of_reading rfl rfl hr' hout'⟩

open Reference in
theorem inverse_takes_back_around :
    around.length = block.shape.rank ∧ ∃ moved : List Nat, moved ≠ List.range 24 ∧
      Bounded.gathered? (gatherTable [2, 3, 4] [1, 2, 0]) (Array.range 24) = some moved ∧
      Bounded.gathered? (gatherTable [3, 4, 2] [2, 0, 1]) moved.toArray =
        some (List.range 24) := by
  have hr : around.length = block.shape.rank := by decide
  obtain ⟨⟨out, hout, -, hgathers, -⟩, -⟩ := inverse_takes_back block.shape around hr
  have hdims : out.dims = [3, 4, 2] :=
    (Permutation.transposeShape?_eq_some_iff.1 hout).2.symm.trans (by decide)
  obtain ⟨moved, hto, hback⟩ := hgathers Nat (Array.range 24) (by decide)
  rw [hdims] at hback
  refine ⟨hr, moved, ?_, hto, hback.trans (by rw [Array.toList_range])⟩
  rintro rfl
  exact absurd hto (by decide)

end LayerGraph
