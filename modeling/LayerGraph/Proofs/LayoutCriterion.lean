import LayerGraph.Proofs.Gathering
import LayerGraph.Proofs.Optimizing

/-!
# Which reorderings move nothing

A reordering may become a reshape when the axes longer than one keep their order. That test
is exact: where two such axes change places, one step along each of them leads to positions
in opposite orders before and after. So a reordering passes the test exactly when its table
lists the positions in turn, and exactly when its workload hands its input on as it is.
-/

set_option autoImplicit false

namespace LayerGraph

open Permutation (gatherDims)

/-- Coordinates one step from the origin along one of `rank` axes. -/
def oneStep (rank axis : Nat) : List Nat := (List.replicate rank 0).set axis 1

section Strides

variable {dims : List Nat} {i j : Nat}

theorem position_origin (dims : List Nat) : position dims (List.replicate dims.length 0) = 0 := by
  induction dims with
  | nil => rfl
  | cons dim rest ih => rw [List.length_cons, List.replicate_succ, position, ih, Nat.zero_mul]

theorem position_oneStep (dims : List Nat) (axis : Nat) :
    position dims (oneStep dims.length axis) = (strides dims).getD axis 0 := by
  induction dims generalizing axis with
  | nil => rfl
  | cons dim rest ih =>
    cases axis with
    | zero => simp [oneStep, List.replicate_succ, position, position_origin, strides]
    | succ axis => simpa [oneStep, List.replicate_succ, position, strides] using ih axis

theorem oneStep_mem (hpos : ∀ d ∈ dims, 0 < d) (hj : 1 < dims.getD j 0) :
    oneStep dims.length j ∈ coordinates dims := by
  rw [mem_coordinates, List.forall₂_iff_get]
  refine ⟨by simp [oneStep], fun i h₁ h₂ => ?_⟩
  by_cases hi : j = i
  · subst hi
    simpa [oneStep, h₂] using hj
  · simpa [oneStep, hi] using hpos _ (List.getElem_mem h₂)

theorem stride_lt_volume (hpos : ∀ d ∈ dims, 0 < d) (hj : 1 < dims.getD j 0) :
    (strides dims).getD j 0 < volume dims := by
  induction dims generalizing j with
  | nil => simp at hj
  | cons dim rest ih =>
    obtain ⟨hdim, hrest⟩ := List.forall_mem_cons.1 hpos
    cases j with
    | zero => exact (Nat.lt_mul_iff_one_lt_left (Shape.volume_pos hrest)).2 hj
    | succ j =>
      calc (strides rest).getD j 0 < volume rest := ih hrest hj
        _ ≤ dim * volume rest := Nat.le_mul_of_pos_left _ hdim

/-- A step along a long axis is shorter than one along any axis before it. -/
theorem stride_lt_stride (hpos : ∀ d ∈ dims, 0 < d) (hij : i < j) (hj : 1 < dims.getD j 0) :
    (strides dims).getD j 0 < (strides dims).getD i 0 := by
  induction dims generalizing i j with
  | nil => simp at hj
  | cons dim rest ih =>
    have hrest := (List.forall_mem_cons.1 hpos).2
    obtain _ | j := j
    · omega
    cases i with
    | zero => exact stride_lt_volume hrest hj
    | succ i => exact ih hrest (by omega) hj

end Strides

section Criterion

variable {p : Permutation} {dims : List Nat} {s out : Shape} {j axis : Nat}

theorem sourceCoordinates_oneStep (h : p.axes[j]? = some axis) :
    sourceCoordinates p.axes (oneStep p.axes.length j) = oneStep p.axes.length axis := by
  apply List.ext_getElem (by simp [sourceCoordinates, oneStep])
  intro i h₁ h₂
  have hi : i < p.axes.length := by simpa [oneStep] using h₂
  have hat := Permutation.getElem?_idxOf (p := p) hi
  have hlt := (List.getElem?_eq_some_iff.1 hat).1
  have hsame : j = p.axes.idxOf i ↔ axis = i := by
    constructor
    · rintro rfl
      exact Option.some.inj (h.symm.trans hat)
    · rintro rfl
      exact (Permutation.idxOf_eq_of_getElem? h).symm
  simp [sourceCoordinates, oneStep, List.getElem_set, hlt, hsame]

theorem gatherTable_eq_range_iff (hd : p.axes.length = dims.length) :
    gatherTable dims p.axes = List.range (volume dims) ↔
      ∀ coords ∈ coordinates (gatherDims dims p.axes),
        position dims (sourceCoordinates p.axes coords) =
          position (gatherDims dims p.axes) coords := by
  rw [gatherTable_eq p.rearranged hd, ← volume_gatherDims p hd, ← map_position_coordinates,
    List.map_inj_left]

theorem getD_gathered (hout : gatherDims s.dims p.axes = out.dims)
    (hj : p.axes[j]? = some axis) : out.dims.getD j 0 = s.dims.getD axis 0 := by
  rw [← hout, gatherDims, List.getD_eq_getElem?_getD, List.getElem?_map, hj, Option.map_some,
    Option.getD_some]

theorem one_lt_getD (hd : p.axes.length = s.dims.length) (hj : p.axes[j]? = some axis)
    (hlong : s.dims.getD axis 0 ≠ 1) : 1 < s.dims.getD axis 0 := by
  have hlt : axis < s.dims.length := hd ▸ Permutation.lt_of_getElem? hj
  have hpos := s.dims_pos _ (List.getElem_mem hlt)
  rw [List.getD_eq_getElem?_getD, List.getElem?_eq_getElem hlt, Option.getD_some] at hlong ⊢
  omega

variable (hd : p.axes.length = s.dims.length) (hout : gatherDims s.dims p.axes = out.dims)
  (htable : gatherTable s.dims p.axes = List.range s.numElements)

include hd hout htable

/-- Where every position reads itself, a long axis has the stride of the axis it reads. -/
theorem stride_eq_of_gatherTable (hj : p.axes[j]? = some axis) (hlong : 1 < s.dims.getD axis 0) :
    (strides s.dims).getD axis 0 = (strides out.dims).getD j 0 := by
  have hrank : out.dims.length = p.axes.length := by rw [← hout, length_gatherDims]
  have hmem : oneStep out.dims.length j ∈ coordinates out.dims :=
    oneStep_mem out.dims_pos (by rwa [getD_gathered hout hj])
  have hsame := (gatherTable_eq_range_iff hd).1 htable _ (hout.symm ▸ hmem)
  rw [length_gatherDims, sourceCoordinates_oneStep hj, hout] at hsame
  rw [← position_oneStep, ← position_oneStep, ← hd, hsame, hrank]

theorem longAxes_ascending :
    (p.axes.filter fun axis => s.dims.getD axis 0 ≠ 1).Pairwise (· ≤ ·) := by
  rw [List.pairwise_filter, List.pairwise_iff_getElem]
  intro i j hi hj hij hlong hlong'
  by_contra hback
  have hlt : p.axes[j] < p.axes[i] := by omega
  have hreads := List.getElem?_eq_getElem hi
  have hreads' := List.getElem?_eq_getElem hj
  have hfirst := one_lt_getD hd hreads (by simpa using hlong)
  have hsecond := one_lt_getD hd hreads' (by simpa using hlong')
  have hafter : 1 < out.dims.getD j 0 := by rwa [getD_gathered hout hreads']
  -- the strides of the two axes are in opposite orders before and after
  have hloop : (strides s.dims).getD p.axes[i] 0 < (strides s.dims).getD p.axes[i] 0 :=
    calc (strides s.dims).getD p.axes[i] 0
        < (strides s.dims).getD p.axes[j] 0 := stride_lt_stride s.dims_pos hlt hfirst
      _ = (strides out.dims).getD j 0 := stride_eq_of_gatherTable hd hout htable hreads' hsecond
      _ < (strides out.dims).getD i 0 := stride_lt_stride out.dims_pos hij hafter
      _ = (strides s.dims).getD p.axes[i] 0 :=
        (stride_eq_of_gatherTable hd hout htable hreads hfirst).symm
  exact Nat.lt_irrefl _ hloop

end Criterion

/-- The long axes keep their order exactly when every position reads itself. -/
theorem isLayoutPreserving_iff {p : Permutation} {s : Shape}
    (hd : p.axes.length = s.dims.length) : isLayoutPreserving s.dims p.axes = true ↔
      gatherTable s.dims p.axes = List.range s.numElements := by
  constructor
  · intro h
    rw [Shape.numElements, gatherTable_eq_range_iff hd]
    exact fun coords hc => position_of_layoutPreserving h hc
  · intro htable
    obtain ⟨out, hout⟩ := p.exists_gathered hd
    rw [isLayoutPreserving, Bool.and_eq_true, beq_iff_eq]
    exact ⟨hd.symm, (keepsOrder_iff none).2 ⟨longAxes_ascending hd hout htable, by simp⟩⟩

/-- A table that hands on all elements as they are lists the positions in turn: a row in which
one element is marked tells any other table apart. -/
theorem Kernel.gathered_eq_self_iff {s : Storage} {table : List Nat} :
    (∀ data : Elements s, data.size = table.length → gathered table data = data) ↔
      table = List.range table.length := by
  constructor
  · intro hself
    apply List.ext_getElem (by simp)
    intro i hi _
    rw [List.getElem_range]
    by_contra hne
    let marked : Elements s := Array.ofFn fun k : Fin table.length => if k.1 = i then 1 else 0
    have hread : (gathered table marked)[i]? = some 0 := by
      by_cases hlt : table[i] < table.length <;>
        simp [gathered, marked, Array.getD, hi, hne, hlt]
    have hmark : marked[i]? = some 1 := by simp [marked, hi]
    have hzero : (0 : BitVec s.bits) = 1 := by
      rw [hself marked (by simp [marked]), hmark] at hread
      exact (Option.some.inj hread).symm
    cases s <;> simp [Storage.bits, Storage.size] at hzero
  · intro htable data hsize
    rw [htable, ← hsize]
    apply Array.ext
    · simp [gathered]
    · intro i h₁ h₂
      simp [gathered, Array.getD, h₂]

def Workload.Copies (w : Workload) (a b : Descriptor) : Prop :=
  ∀ m old : Memory, m.extent = a.extent → old.extent = b.extent →
    w.run [m] [old] = ⟨[m], .ok ()⟩

namespace Reference

variable {kind : OperationKind} {t : DataType} {spec : WorkloadSpec} {p : Permutation}
  {w : Workload} {a b : Descriptor}

theorem dataType_of_checkSpec (h : checkSpec kind t spec = .ok ()) :
    ∀ binding ∈ spec.inputs ++ spec.outputs, binding.descriptor.dataType = t := by
  simp only [checkSpec] at h
  split at h
  · obtain ⟨_, hfault, -⟩ := except_bind_eq_ok_iff.1 h
    cases hfault
  · obtain ⟨_, -, h⟩ := except_bind_eq_ok_iff.1 h
    split at h
    · cases h
    · rename_i hnone
      intro binding hb
      simpa using List.find?_eq_none.1 hnone binding hb

theorem tensors_of_unaryTensors (h : unaryTensors kind t spec = .ok (a, b)) :
    ∃ i o, spec.inputs = [⟨i, a⟩] ∧ spec.outputs = [⟨o, b⟩] ∧ a.dataType = t ∧ b.dataType = t := by
  obtain ⟨_, hcheck, h⟩ := except_bind_eq_ok_iff.1 h
  have htypes := dataType_of_checkSpec hcheck
  split at h
  · rename_i input output hin hout
    cases h
    exact ⟨input.slot, output.slot, hin, hout, htypes _ (by simp [hin]), htypes _ (by simp [hout])⟩
  · cases h

theorem gatherPlan_eq_ok_iff {source table : List Nat} {input output : Shape} :
    gatherPlan kind t source input output = .ok table ↔ source.length = input.dims.length ∧
      gatherDims input.dims source = output.dims ∧ table = gatherTable input.dims source := by
  rw [gatherPlan]
  by_cases hr : source.length = input.rank
  · by_cases hd : gatherDims input.dims source = output.dims
    · simp [hr, hd, Shape.rank, eq_comm]
    · simp [hr, hd, invalid]
  · simp [show source.length ≠ input.dims.length from hr, hr, invalid]

/-- A reordering workload is built exactly for tensors that the operation takes. -/
theorem reordering_eq_ok_iff (hk : spec.operation.kind = kind)
    (hp : spec.operation.reading? = some p) : reordering kind t spec = .ok w ↔
      ∃ i o a b, spec.inputs = [⟨i, a⟩] ∧ spec.outputs = [⟨o, b⟩] ∧ spec.operation.Takes [a] b ∧
        b.dataType = t ∧
        w = unary kind t spec (Kernel.gather (gatherTable a.shape.dims p.axes)) := by
  constructor
  · intro h
    obtain ⟨⟨a, b⟩, htensors, h⟩ := except_bind_eq_ok_iff.1 h
    obtain ⟨i, o, hin, hout, ha, hb⟩ := tensors_of_unaryTensors htensors
    simp only [Operation.sourceAxes?_of_reading hp] at h
    obtain ⟨table, hplan, h⟩ := except_bind_eq_ok_iff.1 h
    obtain ⟨hr, hd, rfl⟩ := gatherPlan_eq_ok_iff.1 hplan
    cases h
    exact ⟨i, o, a, b, hin, hout, (Operation.takes_iff_of_reading hp).2 ⟨hr, hd, ha.trans hb.symm⟩,
      hb, rfl⟩
  · rintro ⟨i, o, a, b, hin, hout, htakes, hb, rfl⟩
    obtain ⟨hr, hd, -⟩ := (Operation.takes_iff_of_reading hp).1 htakes
    exact reordering_ok hk htakes hin hout hb hp hr hd

theorem run_gather (hp : spec.operation.reading? = some p) (htakes : spec.operation.Takes [a] b)
    {m old : Memory} (hm : m.extent = a.extent) (hold : old.extent = b.extent) :
    (unary kind b.dataType spec (Kernel.gather (gatherTable a.shape.dims p.axes))).run [m] [old] =
      ⟨[m.reorder a.shape.dims p.axes], .ok ()⟩ := by
  obtain ⟨hr, hd, ht⟩ := (Operation.takes_iff_of_reading hp).1 htakes
  have hcomputes : (unary kind b.dataType spec
      (Kernel.gather (gatherTable a.shape.dims p.axes))).Computes .nearest [a] b :=
    computes_gather hp hr hd ht rfl
  obtain ⟨result, hresult, -, hrun⟩ := hcomputes [m] old (by simp [hm]) hold
  obtain rfl := Option.some.inj ((Operation.result?_of_reading hp _).symm.trans hresult)
  exact hrun

theorem copies_iff (hp : spec.operation.reading? = some p) (htakes : spec.operation.Takes [a] b) :
    (unary kind b.dataType spec (Kernel.gather (gatherTable a.shape.dims p.axes))).Copies a b ↔
      isLayoutPreserving a.shape.dims p.axes = true := by
  have hr := ((Operation.takes_iff_of_reading hp).1 htakes).1
  constructor
  · intro hcopies
    have hlen : (gatherTable a.shape.dims p.axes).length = a.shape.numElements := by
      rw [length_gatherTable, volume_gatherDims p hr]
      rfl
    rw [isLayoutPreserving_iff hr, ← hlen,
      ← Kernel.gathered_eq_self_iff (s := a.dataType.storage)]
    intro data hsize
    have hm : (⟨a.dataType.storage, data⟩ : Memory).extent = a.extent := by
      simp [Memory.extent, Memory.size, Descriptor.extent, hsize, hlen, Descriptor.numElements]
    have hold := Memory.extent_zeroed b.dataType.storage b.numElements
    have hsame := (run_gather hp htakes hm hold).symm.trans (hcopies _ _ hm hold)
    rw [Memory.reorder, ← gathered_gatherTable p.rearranged hr] at hsame
    simpa using hsame
  · intro hlayout m old hm hold
    rw [run_gather hp htakes hm hold, Memory.reorder_of_layoutPreserving hlayout]
    exact congrArg Extent.size hm

end Reference

theorem Operation.exists_reading {operation : Operation}
    (h : operation.kind = .permute ∨ operation.kind = .transpose) :
    ∃ q, operation.reading? = some q := by
  cases operation <;> simp_all [kind, reading?]

namespace Rule

variable {g : Graph} {id : NodeId} {node : Node} {source : List Nat} {a b : Descriptor}

/-- A rule for the nodes of one kind that reorder their input and move nothing. -/
def Flattens (rule : Rule) (kind : OperationKind) : Prop :=
  ∀ g id, rule.applies g id = true ↔ ∃ node q, g.node? id = some node ∧ node.kind = kind ∧
    node.operation.reading? = some q ∧ movesNothing g id q.axes = true

theorem flattens_of_fits {rule : Rule} {kind : OperationKind}
    (hkind : kind = .permute ∨ kind = .transpose)
    (hadmits : ∀ operation, rule.admits operation = (operation.kind == kind))
    (hfits : ∀ g id node q, g.node? id = some node → node.kind = kind →
      node.operation.reading? = some q → rule.fits g id = movesNothing g id q.axes) :
    rule.Flattens kind := by
  intro g id
  rw [applies_iff]
  constructor
  · rintro ⟨node, hn, ha, hf⟩
    rw [hadmits, beq_iff_eq] at ha
    obtain ⟨q, hq⟩ := Operation.exists_reading (ha ▸ hkind)
    exact ⟨node, q, hn, ha, hq, hfits g id node q hn ha hq ▸ hf⟩
  · rintro ⟨node, q, hn, hk, hq, hmoves⟩
    exact ⟨node, hn, (hadmits _).trans (beq_iff_eq.2 hk),
      (hfits g id node q hn hk hq).trans hmoves⟩

theorem permuteAsReshape_flattens : permuteAsReshape.Flattens .permute := by
  refine flattens_of_fits (.inl rfl) (fun _ => rfl) fun g id node q hn hk hq => ?_
  cases hop : node.operation <;> rw [Node.kind, hop] at hk <;> cases hk
  rw [hop] at hq
  cases hq
  simp [permuteAsReshape, permuteMovesNothing, hn, hop]

theorem transposeAsReshape_flattens : transposeAsReshape.Flattens .transpose := by
  refine flattens_of_fits (.inr rfl) (fun _ => rfl) fun g id node q hn hk hq => ?_
  cases hop : node.operation <;> rw [Node.kind, hop] at hk <;> cases hk
  rw [hop] at hq
  cases hq
  simp [transposeAsReshape, transposeMovesNothing, hn, hop]

theorem movesNothing_of_described (hg : g.Sound) (hn : g.node? id = some node)
    (ha : g.inputDescriptor? ⟨id, 0⟩ = some a) (hb : g.outputDescriptor? ⟨id, 0⟩ = some b) :
    movesNothing g id source = true ↔ isLayoutPreserving a.shape.dims source = true := by
  rw [movesNothing_iff]
  constructor
  · rintro ⟨other, a', -, hother, -, ha', hlayout⟩
    rw [hg.node_id _ _ hother] at ha'
    obtain rfl := Option.some.inj (ha.symm.trans ha')
    exact hlayout
  · intro hlayout
    exact ⟨node, a, b, hn, hb, by rwa [hg.node_id _ _ hn], hlayout⟩

end Rule

namespace Graph

variable {f : FloatAddition} {table : BindingTable} {g : Graph} {id : NodeId} {node : Node}
  {a b : Descriptor} {w : Workload} {q : Permutation}

/-- A node reads a tensor described by `a`, writes one described by `b`, and `w` is what the
reference backend builds for it. -/
structure ServedBy (f : FloatAddition) (g : Graph) (id : NodeId) (a b : Descriptor)
    (w : Workload) : Prop where
  reads : g.inputDescriptor? ⟨id, 0⟩ = some a
  writes : g.outputDescriptor? ⟨id, 0⟩ = some b
  built : ∃ node i o build, g.node? id = some node ∧
    Reference.constructor? f node.kind b.dataType = some build ∧
    build ⟨id, node.name, node.operation, [⟨i, a⟩], [⟨o, b⟩]⟩ = .ok w

theorem constructor?_of_reading (hq : node.operation.reading? = some q) (t : DataType) :
    Reference.constructor? f node.kind t = some (Reference.reordering node.kind t) := by
  rcases Operation.kind_of_reading hq with hk | hk <;> rw [Node.kind, hk] <;> rfl

/-- What serves a reordering takes its tensors and gathers through the table of its axes. -/
theorem ServedBy.eq_gather (hw : g.ServedBy f id a b w) (hn : g.node? id = some node)
    (hq : node.operation.reading? = some q) : ∃ spec, spec.operation = node.operation ∧
      spec.operation.Takes [a] b ∧ w = Reference.unary node.kind b.dataType spec
        (Kernel.gather (gatherTable a.shape.dims q.axes)) := by
  obtain ⟨_, i, o, build, hn', hbuild, hbuilt⟩ := hw.built
  obtain rfl := Option.some.inj (hn.symm.trans hn')
  rw [constructor?_of_reading hq] at hbuild
  obtain rfl := Option.some.inj hbuild
  obtain ⟨_, _, _, _, hin, hout, htakes, -, hw'⟩ :=
    (Reference.reordering_eq_ok_iff rfl hq).1 hbuilt
  cases hin
  cases hout
  exact ⟨_, rfl, htakes, hw'⟩

theorem ServedBy.copies_iff (hw : g.ServedBy f id a b w) (hn : g.node? id = some node)
    (hq : node.operation.reading? = some q) :
    w.Copies a b ↔ isLayoutPreserving a.shape.dims q.axes = true := by
  obtain ⟨spec, hop, htakes, rfl⟩ := hw.eq_gather hn hq
  exact Reference.copies_iff (hop ▸ hq) htakes

theorem exists_servedBy (hn : g.node? id = some node) (hq : node.operation.reading? = some q)
    (ha : g.inputDescriptor? ⟨id, 0⟩ = some a) (hb : g.outputDescriptor? ⟨id, 0⟩ = some b)
    (htakes : node.operation.Takes [a] b) : ∃ w, g.ServedBy f id a b w := by
  let spec : WorkloadSpec :=
    ⟨id, node.name, node.operation, [⟨.intermediate 0, a⟩], [⟨.intermediate 1, b⟩]⟩
  have hbuilt : Reference.reordering node.kind b.dataType spec = .ok _ :=
    (Reference.reordering_eq_ok_iff rfl hq).2 ⟨_, _, a, b, rfl, rfl, htakes, rfl, rfl⟩
  exact ⟨_, ha, hb, node, _, _, _, hn, constructor?_of_reading hq _, hbuilt⟩

/-- In a valid graph every reordering is served. -/
theorem Valid.exists_servedBy (hv : g.Valid table) (hn : g.node? id = some node)
    (hq : node.operation.reading? = some q) : ∃ a b w, g.ServedBy f id a b w := by
  have harranges := Operation.arranges_of_reading hq
  obtain ⟨o, ho⟩ := hv.exists_source hn (i := 0) (by
    rw [Node.kind, harranges.kind_eq.2.2]
    exact Nat.zero_lt_one)
  obtain ⟨a, b, ha, hb, htakes⟩ := hv.unary_takes hn harranges ho
  have hin : g.inputDescriptor? ⟨id, 0⟩ = some a := by
    rw [inputDescriptor?_eq, ho, Option.bind_some, ha]
  exact ⟨a, b, Graph.exists_servedBy hn hq hin hb htakes⟩

theorem ServedBy.applies_iff {rule : Rule} {kind : OperationKind} (hrule : rule.Flattens kind)
    (hkind : kind = .permute ∨ kind = .transpose) (hw : g.ServedBy f id a b w) (hg : g.Sound)
    (hn : g.node? id = some node) :
    rule.applies g id = true ↔ node.kind = kind ∧ w.Copies a b := by
  rw [hrule]
  constructor
  · rintro ⟨_, q, hn', hk, hq, hmoves⟩
    obtain rfl := Option.some.inj (hn.symm.trans hn')
    rw [Rule.movesNothing_of_described hg hn hw.reads hw.writes] at hmoves
    exact ⟨hk, (hw.copies_iff hn hq).2 hmoves⟩
  · rintro ⟨rfl, hcopies⟩
    obtain ⟨q, hq⟩ := Operation.exists_reading hkind
    refine ⟨node, q, hn, rfl, hq, ?_⟩
    rw [Rule.movesNothing_of_described hg hn hw.reads hw.writes]
    exact (hw.copies_iff hn hq).1 hcopies

/-- The test for reorderings that may become reshapes is exact. For every shape and every
permutation of its axes it passes just those whose table lists the positions in turn, so its
two rules match just the permutes and the transposes whose workload hands the input on as it
is; and in a valid graph every permute and every transpose has a workload. -/
theorem reshape_criterion_exact (f : FloatAddition) :
    (∀ (s : Shape) (p : Permutation), p.length = s.rank →
      (isLayoutPreserving s.dims p.axes = true ↔
        gatherTable s.dims p.axes = List.range s.numElements)) ∧
    ∀ (g : Graph) (id : NodeId) (node : Node), g.Reachable → g.node? id = some node →
      (∀ a b w, g.ServedBy f id a b w →
        (Rule.transposeAsReshape.applies g id = true ↔ node.kind = .transpose ∧ w.Copies a b) ∧
        (Rule.permuteAsReshape.applies g id = true ↔ node.kind = .permute ∧ w.Copies a b)) ∧
      (g.validate = .ok () → node.kind = .permute ∨ node.kind = .transpose →
        ∃ a b w, g.ServedBy f id a b w) := by
  refine ⟨fun s p hd => isLayoutPreserving_iff hd, fun g id node hg hn => ⟨fun a b w hw => ?_,
    fun hvalid hkind => ?_⟩⟩
  · exact ⟨hw.applies_iff Rule.transposeAsReshape_flattens (.inr rfl) hg.sound hn,
      hw.applies_iff Rule.permuteAsReshape_flattens (.inl rfl) hg.sound hn⟩
  · obtain ⟨table, hv⟩ := hg.sound.validate_eq_ok_iff.1 hvalid
    obtain ⟨q, hq⟩ := Operation.exists_reading hkind
    exact hv.exists_servedBy hn hq

open Network in
theorem reshape_criterion_exact_folding :
    swap.length = row.shape.rank ∧ gatherTable row.shape.dims swap.axes = List.range 6 ∧
      swap.length = wide.shape.rank ∧ gatherTable wide.shape.dims swap.axes ≠ List.range 6 ∧
      folding.Reachable ∧ folding.validate = .ok () ∧
      (∃ w, folding.ServedBy .nearest 6 row column w ∧ w.Copies row column) ∧
      ∃ w, folding.ServedBy .nearest 1 wide tall w ∧ ¬ w.Copies wide tall := by
  obtain ⟨hcriterion, hmatches⟩ := reshape_criterion_exact .nearest
  have hg : folding.Reachable := .changed .empty _
  have hvalid : folding.validate = .ok () := by decide +kernel
  have hrow := hcriterion row.shape swap (by decide)
  have hwide := hcriterion wide.shape swap (by decide)
  refine ⟨by decide, hrow.1 (by decide), by decide, fun h => ?_, hg, hvalid, ?_, ?_⟩
  · exact absurd (hwide.2 h) (by decide)
  · obtain ⟨node, hn, hk⟩ : ∃ node, folding.node? 6 = some node ∧ node.kind = .permute :=
      Option.map_eq_some_iff.1 (by decide +kernel)
    obtain ⟨hserved, hexists⟩ := hmatches folding 6 node hg hn
    obtain ⟨a, b, w, hw⟩ := hexists hvalid (.inl hk)
    obtain rfl : row = a := Option.some.inj (Eq.trans (by decide +kernel) hw.reads)
    obtain rfl : column = b := Option.some.inj (Eq.trans (by decide +kernel) hw.writes)
    exact ⟨w, hw, ((hserved _ _ w hw).2.1 (by decide +kernel)).2⟩
  · obtain ⟨node, hn, hk⟩ : ∃ node, folding.node? 1 = some node ∧ node.kind = .transpose :=
      Option.map_eq_some_iff.1 (by decide +kernel)
    obtain ⟨hserved, hexists⟩ := hmatches folding 1 node hg hn
    obtain ⟨a, b, w, hw⟩ := hexists hvalid (.inr hk)
    obtain rfl : wide = a := Option.some.inj (Eq.trans (by decide +kernel) hw.reads)
    obtain rfl : tall = b := Option.some.inj (Eq.trans (by decide +kernel) hw.writes)
    exact ⟨w, hw, fun hcopies => absurd ((hserved _ _ w hw).1.2 ⟨hk, hcopies⟩) (by decide +kernel)⟩

end Graph

end LayerGraph
