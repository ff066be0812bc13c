import LayerGraph.Proofs.Execution

/-!
# Elements of a reordered tensor

A workload that reorders axes goes by positions in a table. What it writes is told by
coordinates: at the position of any coordinates of the output stands the one element of
the input whose coordinates are those, each on the axis that is read or moved.
-/

set_option autoImplicit false

namespace LayerGraph

open Permutation (gatherDims)

namespace Permutation

variable {p : Permutation} {dims x coords : List Nat}

/-- Input coordinates seen from output coordinates, when output axis `j` reads input axis
`p[j]`. -/
def Reads (p : Permutation) (x coords : List Nat) : Prop :=
  ∀ j axis : Nat, p.axes[j]? = some axis → x[axis]? = coords[j]?

/-- Input coordinates seen from output coordinates, when input axis `i` is moved to output
axis `p[i]`. -/
def Moves (p : Permutation) (x coords : List Nat) : Prop :=
  ∀ i axis : Nat, p.axes[i]? = some axis → x[i]? = coords[axis]?

/-- Moving axes is reading them through the inverse. -/
theorem moves_iff : p.Moves x coords ↔ p.inverse.Reads x coords := by
  simp only [Moves, Reads, getElem?_inverse_iff]
  exact ⟨fun h j axis => h axis j, fun h i axis => h axis i⟩

/-- Within the dimensions, only one element is read at given coordinates. -/
theorem reads_iff (hd : p.axes.length = dims.length)
    (hc : coords ∈ coordinates (gatherDims dims p.axes)) :
    x ∈ coordinates dims ∧ p.Reads x coords ↔ x = sourceCoordinates p.axes coords := by
  have hlen : coords.length = p.axes.length :=
    (length_of_mem_coordinates hc).trans length_gatherDims
  constructor
  · rintro ⟨hx, hreads⟩
    have hxlen := length_of_mem_coordinates hx
    apply List.ext_getElem?
    intro axis
    rcases Nat.lt_or_ge axis p.axes.length with haxis | haxis
    · have hat := getElem?_idxOf haxis
      have hj : p.axes.idxOf axis < coords.length := by
        rw [hlen]
        exact (List.getElem?_eq_some_iff.1 hat).1
      rw [hreads _ axis hat, getElem?_sourceCoordinates haxis, List.getD_eq_getElem?_getD,
        List.getElem?_eq_getElem hj, Option.getD_some]
    · rw [List.getElem?_eq_none (by omega),
        List.getElem?_eq_none (by rwa [length_sourceCoordinates])]
  · rintro rfl
    refine ⟨sourceCoordinates_mem hd hc, fun j axis hj => ?_⟩
    have hlt : j < coords.length := by
      rw [hlen]
      exact (List.getElem?_eq_some_iff.1 hj).1
    rw [getElem?_sourceCoordinates (lt_of_getElem? hj), idxOf_eq_of_getElem? hj,
      List.getD_eq_getElem?_getD, List.getElem?_eq_getElem hlt, Option.getD_some]

/-- Reading the axes of a shape in another order gives a shape. -/
theorem exists_gathered (p : Permutation) {s : Shape} (hr : p.axes.length = s.dims.length) :
    ∃ out : Shape, gatherDims s.dims p.axes = out.dims := by
  obtain ⟨out, hout, -⟩ := Shape.exists_of_perm (gatherDims_perm p hr)
  exact ⟨out, hout.symm⟩

end Permutation

/-- From input of some dimensions a workload writes output of other dimensions: at the position
of any output coordinates, the element at the only input coordinates that are seen from them. -/
def Workload.Gathers (w : Workload) (s : Storage) (dims out : List Nat)
    (sees : List Nat → List Nat → Prop) : Prop :=
  ∀ input old : Elements s, input.size = volume dims → old.size = volume out →
    ∃ output : Elements s, w.run [⟨s, input⟩] [⟨s, old⟩] = ⟨[⟨s, output⟩], .ok ()⟩ ∧
      output.size = volume out ∧
      ∀ coords, List.Forall₂ (· < ·) coords out → ∃ x,
        (∀ y, List.Forall₂ (· < ·) y dims ∧ sees y coords ↔ y = x) ∧
        ∃ element, input[position dims x]? = some element ∧
          output[position out coords]? = some element

namespace Reference

variable {kind : OperationKind} {t : DataType} {spec : WorkloadSpec} {p : Permutation}
  {i o : SlotRef} {a b : Descriptor}

/-- A reordering through the axes of `p` writes what they read. -/
theorem exists_reordering (hk : spec.operation.kind = kind) (hp : spec.operation.reading? = some p)
    (hin : spec.inputs = [⟨i, a⟩]) (hout : spec.outputs = [⟨o, b⟩]) (ha : a.dataType = t)
    (hb : b.dataType = t) (hr : p.axes.length = a.shape.dims.length)
    (hd : gatherDims a.shape.dims p.axes = b.shape.dims) :
    ∃ w, reordering kind t spec = .ok w ∧
      w.Gathers t.storage a.shape.dims b.shape.dims p.Reads := by
  have ht : a.dataType = b.dataType := ha.trans hb.symm
  have htakes := (Operation.takes_iff_of_reading hp).2 ⟨hr, hd, ht⟩
  refine ⟨_, reordering_ok hk htakes hin hout hb hp hr hd, ?_⟩
  have hcomputes : (unary kind t spec (Kernel.gather (gatherTable a.shape.dims p.axes))).Computes
      .nearest [a] b := computes_gather hp hr hd ht hb
  subst hb
  intro input old hinput hold
  have hextent : (⟨b.dataType.storage, input⟩ : Memory).extent = a.extent := by
    simp [Memory.extent, Memory.size, Descriptor.extent, hinput, ht, Descriptor.numElements,
      Shape.numElements]
  have hroom : (⟨b.dataType.storage, old⟩ : Memory).extent = b.extent := by
    simp [Memory.extent, Memory.size, Descriptor.extent, hold, Descriptor.numElements,
      Shape.numElements]
  obtain ⟨m, hresult, -, hrun⟩ := hcomputes [⟨_, input⟩] ⟨_, old⟩ (by simp [hextent]) hroom
  have hresult := (Operation.result?_of_reading hp _).symm.trans hresult
  obtain rfl := Option.some.inj hresult
  refine ⟨(reordered 0 a.shape.dims p.axes input).toArray, hrun, ?_, fun coords hc => ?_⟩
  · rw [List.size_toArray, length_reordered, hd]
  · rw [← hd] at hc ⊢
    have hmem := mem_coordinates.2 hc
    have hpos := position_lt (sourceCoordinates_mem hr hmem)
    refine ⟨sourceCoordinates p.axes coords, fun y => ?_, _,
      Array.getElem?_eq_getElem (hinput.symm ▸ hpos), ?_⟩
    · rw [← mem_coordinates]
      exact Permutation.reads_iff hr hmem
    · rw [List.getElem?_toArray, getElem?_reordered 0 input hmem]
      simp [Array.getD, hinput.symm ▸ hpos]

/-- The reordering workloads put the right element at every position. A transpose, at the
position of any coordinates of the output shape, the one element of the input whose coordinate
on axis `p[j]` is theirs on axis `j`; a permute, the one whose coordinate on axis `i` is theirs
on axis `p[i]`. -/
theorem reordering_elements (s : Shape) (p : Permutation) (hr : p.length = s.rank) (t : DataType) :
    (∃ out, p.transposeShape? s = some (.ok out) ∧
      ∀ node name i o a b, a.shape = s → a.dataType = t → b.shape = out → b.dataType = t →
        ∃ w, reordering .transpose t ⟨node, name, .transpose p, [⟨i, a⟩], [⟨o, b⟩]⟩ = .ok w ∧
          w.Gathers t.storage s.dims out.dims p.Reads) ∧
    ∃ out, p.permuteShape? s = some (.ok out) ∧
      ∀ node name i o a b, a.shape = s → a.dataType = t → b.shape = out → b.dataType = t →
        ∃ w, reordering .permute t ⟨node, name, .permute p, [⟨i, a⟩], [⟨o, b⟩]⟩ = .ok w ∧
          w.Gathers t.storage s.dims out.dims p.Moves := by
  have hmoves : p.Moves = p.inverse.Reads := by
    funext x coords
    exact propext Permutation.moves_iff
  have hr : p.axes.length = s.dims.length := hr
  have hr' : p.inverse.axes.length = s.dims.length := by rwa [Permutation.length_inverse]
  obtain ⟨out, hout⟩ := p.exists_gathered hr
  obtain ⟨out', hout'⟩ := p.inverse.exists_gathered hr'
  refine ⟨⟨out, Permutation.transposeShape?_eq_some_iff.2 ⟨hr, hout⟩, ?_⟩,
    out', Permutation.permuteShape?_eq_some_iff.2 ⟨hr', hout'⟩, ?_⟩
  · rintro node name i o a b rfl ha rfl hb
    exact exists_reordering rfl rfl rfl rfl ha hb hr hout
  · rintro node name i o a b rfl ha rfl hb
    rw [hmoves]
    exact exists_reordering rfl rfl rfl rfl ha hb hr' hout'

def block : Descriptor := Network.wide.withShape ⟨[2, 3, 4], by decide, by decide, by decide⟩

/-- Each axis in the place of the next: not its own inverse. -/
def around : Permutation := ⟨[1, 2, 0], by decide⟩

theorem reordering_elements_around :
    let gives (w : Workload) (here there : Nat) := ∀ input old : Elements .f32,
      input.size = 24 → old.size = 24 → ∃ output : Elements .f32,
        w.run [⟨.f32, input⟩] [⟨.f32, old⟩] = ⟨[⟨.f32, output⟩], .ok ()⟩ ∧
          output[here]? = input[there]?
    around.length = block.shape.rank ∧
      (∃ b w, b.shape.dims = [3, 4, 2] ∧ reordering .transpose .float32
        ⟨1, "t", .transpose around, [⟨.intermediate 0, block⟩], [⟨.intermediate 1, b⟩]⟩ = .ok w ∧
          gives w 3 13) ∧
      ∃ b w, b.shape.dims = [4, 2, 3] ∧ reordering .permute .float32
        ⟨1, "p", .permute around, [⟨.intermediate 0, block⟩], [⟨.intermediate 1, b⟩]⟩ = .ok w ∧
          gives w 8 9 := by
  intro gives
  have hr : around.length = block.shape.rank := by decide
  obtain ⟨⟨out, hout, htranspose⟩, out', hout', hpermute⟩ :=
    reordering_elements block.shape around hr .float32
  have hdims : out.dims = [3, 4, 2] :=
    (Permutation.transposeShape?_eq_some_iff.1 hout).2.symm.trans (by decide)
  have hdims' : out'.dims = [4, 2, 3] :=
    (Permutation.permuteShape?_eq_some_iff.1 hout').2.symm.trans (by decide)
  obtain ⟨w, hw, hgathers⟩ := htranspose 1 "t" (.intermediate 0) (.intermediate 1) block
    (block.withShape out) rfl rfl rfl rfl
  obtain ⟨w', hw', hgathers'⟩ := hpermute 1 "p" (.intermediate 0) (.intermediate 1) block
    (block.withShape out') rfl rfl rfl rfl
  rw [hdims] at hgathers
  rw [hdims'] at hgathers'
  refine ⟨hr, ⟨block.withShape out, w, hdims, hw, fun input old hinput hold => ?_⟩,
    block.withShape out', w', hdims', hw', fun input old hinput hold => ?_⟩
  · obtain ⟨output, hrun, -, hread⟩ := hgathers input old hinput hold
    -- the coordinates (0, 1, 1) read (1, 0, 1)
    obtain ⟨x, hx, element, hin, hat⟩ := hread [0, 1, 1] (by decide)
    obtain rfl : [1, 0, 1] = x := (hx _).1 ⟨by decide, by
      intro j axis hj
      match j, hj with
      | 0, rfl | 1, rfl | 2, rfl => rfl⟩
    exact ⟨output, hrun, hat.trans hin.symm⟩
  · obtain ⟨output, hrun, -, hread⟩ := hgathers' input old hinput hold
    -- the coordinates (1, 0, 2) are those that (0, 2, 1) is moved to
    obtain ⟨x, hx, element, hin, hat⟩ := hread [1, 0, 2] (by decide)
    obtain rfl : [0, 2, 1] = x := (hx _).1 ⟨by decide, by
      intro i axis hi
      match i, hi with
      | 0, rfl | 1, rfl | 2, rfl => rfl⟩
    exact ⟨output, hrun, hat.trans hin.symm⟩

end Reference

end LayerGraph
