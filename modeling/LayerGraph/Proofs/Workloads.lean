import LayerGraph.Network.Meaning
import LayerGraph.Proofs.Registration
import LayerGraph.Proofs.Reordering

/-!
# Workloads of the reference backend

An operation takes descriptors to a descriptor and memories to a memory. For descriptors
it takes, of a type on the backend's list, the reference backend has a workload, and that
workload writes what the operation makes of the memories it reads.
-/

set_option autoImplicit false

namespace LayerGraph

open Permutation (gatherDims)

namespace Operation

/-- The permutation of axes that a reordering reads through. -/
def reading? : Operation → Option Permutation
  | .permute mappings => some mappings.inverse
  | .transpose permutation => some permutation
  | _ => none

inductive Takes : Operation → List Descriptor → Descriptor → Prop where
  | input (id : Int32) (d : Descriptor) : Takes (.input id) [d] d
  | output (id : Int32) (d : Descriptor) : Takes (.output id) [d] d
  | reshape {a b : Descriptor} (hn : a.numElements = b.numElements)
      (ht : a.dataType = b.dataType) : Takes (.reshape b.shape) [a] b
  | reorder {operation : Operation} {p : Permutation} {a b : Descriptor}
      (hp : operation.reading? = some p) (hr : p.axes.length = a.shape.dims.length)
      (hd : gatherDims a.shape.dims p.axes = b.shape.dims)
      (ht : a.dataType = b.dataType) : Takes operation [a] b
  | addition {a c b : Descriptor} (hc : c.shape = a.shape) (hb : a.shape = b.shape)
      (ha : a.dataType = b.dataType) (hct : c.dataType = b.dataType) : Takes .addition [a, c] b

def result? (f : FloatAddition) (operation : Operation) (reads : List Descriptor)
    (written : Descriptor) (memories : List Memory) : Option Memory :=
  match operation, reads, memories with
  | .input _, _, [m] | .output _, _, [m] | .reshape _, _, [m] => some m
  | .permute mappings, [a], [m] => some (m.reorder a.shape.dims mappings.inverse.axes)
  | .transpose permutation, [a], [m] => some (m.reorder a.shape.dims permutation.axes)
  | .addition, _, [left, right] => Memory.add? f written.dataType left right
  | _, _, _ => none

variable {f : FloatAddition} {operation : Operation} {reads : List Descriptor}
  {written a : Descriptor} {p : Permutation}

theorem result?_of_reading (hp : operation.reading? = some p) (m : Memory) :
    operation.result? f [a] written [m] = some (m.reorder a.shape.dims p.axes) := by
  cases operation <;> simp_all [reading?, result?]

theorem kind_of_reading (hp : operation.reading? = some p) :
    operation.kind = .permute ∨ operation.kind = .transpose := by
  cases operation <;> simp_all [reading?, kind]

theorem sourceAxes?_of_reading (hp : operation.reading? = some p) :
    Reference.sourceAxes? operation = some p.axes := by
  cases operation <;> simp_all [reading?, Reference.sourceAxes?]

theorem takes_iff_of_reading {b : Descriptor} (hp : operation.reading? = some p) :
    operation.Takes [a] b ↔ p.axes.length = a.shape.dims.length ∧
      gatherDims a.shape.dims p.axes = b.shape.dims ∧ a.dataType = b.dataType := by
  constructor
  · rintro (_ | _ | _ | ⟨hq, hr, hd, ht⟩)
    case reorder =>
      obtain rfl := Option.some.inj (hp.symm.trans hq)
      exact ⟨hr, hd, ht⟩
    all_goals simp [reading?] at hp
  · rintro ⟨hr, hd, ht⟩
    exact .reorder hp hr hd ht

theorem takes_reshape_iff {target : Shape} {b : Descriptor} : (reshape target).Takes [a] b ↔
    target = b.shape ∧ a.numElements = b.numElements ∧ a.dataType = b.dataType := by
  constructor
  · rintro (_ | _ | ⟨hn, ht⟩ | ⟨hp, -⟩)
    · exact ⟨rfl, hn, ht⟩
    · simp [reading?] at hp
  · rintro ⟨rfl, hn, ht⟩
    exact .reshape hn ht

theorem takes_addition_iff {b c : Descriptor} : addition.Takes [a, c] b ↔
    c.shape = a.shape ∧ a.shape = b.shape ∧ a.dataType = b.dataType ∧ c.dataType = b.dataType := by
  constructor
  · rintro (_ | _ | _ | _ | ⟨hc, hb, ha, hct⟩)
    exact ⟨hc, hb, ha, hct⟩
  · rintro ⟨hc, hb, ha, hct⟩
    exact .addition hc hb ha hct

/-- At the boundary a tensor is handed on as it is described. -/
theorem Takes.reads_of_boundary (h : operation.Takes reads written)
    (hk : operation.kind = .input ∨ operation.kind = .output) : reads = [written] := by
  cases h with
  | input | output => rfl
  | reorder hp => rcases kind_of_reading hp with h | h <;> simp [h] at hk
  | reshape | addition => simp [kind] at hk

theorem Takes.dataType_eq (h : operation.Takes reads written) :
    ∀ d ∈ reads, d.dataType = written.dataType := by
  cases h <;> simp_all

theorem Takes.length_reads (h : operation.Takes reads written) :
    reads.length = operation.kind.workloadInputs ∧ operation.kind.workloadOutputs = 1 := by
  cases h with
  | reorder hp => rcases kind_of_reading hp with h | h <;> simp [h] <;> decide
  | _ => exact ⟨rfl, rfl⟩

end Operation

theorem Descriptor.extent_congr {a b : Descriptor} (hs : a.shape = b.shape)
    (ht : a.dataType = b.dataType) : a.extent = b.extent := by
  rw [extent, extent, numElements, numElements, hs, ht]

namespace Memory

variable {m : Memory} {s : Storage} {n : Nat}

theorem eq_of_extent (h : m.extent = ⟨s, n⟩) :
    ∃ data : Elements s, m = ⟨s, data⟩ ∧ data.size = n := by
  obtain ⟨storage, data⟩ := m
  obtain ⟨rfl, hn⟩ := Extent.mk.inj h
  exact ⟨data, rfl, hn⟩

@[simp]
theorem as?_self (data : Elements s) : (⟨s, data⟩ : Memory).as? s = some data := by
  simp [as?]

theorem extent_reorder (data : Elements s) (dims source : List Nat) :
    (reorder ⟨s, data⟩ dims source).extent = ⟨s, volume (gatherDims dims source)⟩ := by
  simp [reorder, extent, size, length_reordered]

end Memory

namespace Reference

variable {f : FloatAddition} {kind : OperationKind} {t : DataType} {spec : WorkloadSpec}
  {i o : SlotRef} {a b : Descriptor}

theorem checkSpec_ok {reads : List Descriptor} (hk : spec.operation.kind = kind)
    (h : spec.operation.Takes reads b) (hin : spec.inputs.map (·.descriptor) = reads)
    (hout : spec.outputs.map (·.descriptor) = [b]) (ht : b.dataType = t) :
    checkSpec kind t spec = .ok () := by
  have harity : ¬ (spec.inputs.length ≠ spec.operation.kind.workloadInputs ∨
      spec.outputs.length ≠ spec.operation.kind.workloadOutputs) := by
    obtain ⟨hreads, hwritten⟩ := h.length_reads
    have hi := congrArg List.length hin
    have ho := congrArg List.length hout
    simp only [List.length_map, List.length_singleton] at hi ho
    omega
  have hfind : ((spec.inputs ++ spec.outputs).find? fun binding =>
      binding.descriptor.dataType != t) = none := by
    rw [List.find?_eq_none]
    intro binding hb
    suffices binding.descriptor.dataType = t by simpa using this
    rcases List.mem_append.1 hb with hb | hb
    · rw [← ht]
      exact h.dataType_eq _ (hin ▸ List.mem_map_of_mem hb)
    · have hmem : binding.descriptor ∈ spec.outputs.map (·.descriptor) := List.mem_map_of_mem hb
      rw [hout, List.mem_singleton] at hmem
      rw [hmem, ht]
  simp only [checkSpec, hk, ne_eq, not_true_eq_false, if_false, WorkloadSpec.checkArity]
  rw [← hk, if_neg harity, hfind]
  rfl

theorem unaryTensors_ok (hk : spec.operation.kind = kind) (h : spec.operation.Takes [a] b)
    (hin : spec.inputs = [⟨i, a⟩]) (hout : spec.outputs = [⟨o, b⟩]) (ht : b.dataType = t) :
    unaryTensors kind t spec = .ok (a, b) := by
  have hcheck := checkSpec_ok hk h (by simp [hin]) (by simp [hout]) ht
  rw [unaryTensors, hcheck, hin, hout]
  rfl

theorem copying_ok (hk : spec.operation.kind = kind) (h : spec.operation.Takes [a] b)
    (hin : spec.inputs = [⟨i, a⟩]) (hout : spec.outputs = [⟨o, b⟩]) (ht : b.dataType = t)
    (hn : a.numElements = b.numElements) (htarget : checkTarget kind t spec.operation b = .ok ()) :
    copying kind t spec = .ok (unary kind t spec Kernel.copy) := by
  rw [copying, unaryTensors_ok hk h hin hout ht]
  simp only [bind, Except.bind, hn, ne_eq, not_true_eq_false, if_false, htarget]
  rfl

theorem reordering_ok {p : Permutation} (hk : spec.operation.kind = kind)
    (h : spec.operation.Takes [a] b) (hin : spec.inputs = [⟨i, a⟩]) (hout : spec.outputs = [⟨o, b⟩])
    (ht : b.dataType = t) (hp : spec.operation.reading? = some p)
    (hr : p.axes.length = a.shape.dims.length)
    (hd : gatherDims a.shape.dims p.axes = b.shape.dims) :
    reordering kind t spec =
      .ok (unary kind t spec (Kernel.gather (gatherTable a.shape.dims p.axes))) := by
  rw [reordering, unaryTensors_ok hk h hin hout ht]
  simp only [bind, Except.bind, Operation.sourceAxes?_of_reading hp, gatherPlan, Shape.rank, hr,
    hd, ne_eq, not_true_eq_false, if_false]
  rfl

end Reference

def Workload.Computes (f : FloatAddition) (w : Workload) (reads : List Descriptor)
    (written : Descriptor) : Prop :=
  ∀ memories old, memories.map Memory.extent = reads.map Descriptor.extent →
    old.extent = written.extent →
    ∃ m, w.spec.operation.result? f reads written memories = some m ∧
      m.extent = written.extent ∧ w.run memories [old] = ⟨[m], .ok ()⟩

section Runs

variable {f : FloatAddition} {s : Storage} {name : String} {old : Memory} {room : Nat}

theorem runUnary_ok {kernel : Elements s → (room : Nat) → Except String (ElementsOf s room)}
    {input : Elements s} (elements : ElementsOf s room) (hold : old.extent = ⟨s, room⟩)
    (hk : kernel input room = .ok elements) :
    runUnary name s kernel [⟨s, input⟩] [old] = ⟨[⟨s, elements.1⟩], .ok ()⟩ := by
  obtain ⟨before, rfl, rfl⟩ := Memory.eq_of_extent hold
  have hk : kernel input (Memory.size ⟨s, before⟩) = .ok elements := hk
  simp [runUnary, typedInput, writeFirst, hk]

theorem runBinary_ok
    {kernel : Elements s → Elements s → (room : Nat) → Except String (ElementsOf s room)}
    {left right : Elements s} (elements : ElementsOf s room) (hold : old.extent = ⟨s, room⟩)
    (hk : kernel left right room = .ok elements) :
    runBinary name s kernel [⟨s, left⟩, ⟨s, right⟩] [old] = ⟨[⟨s, elements.1⟩], .ok ()⟩ := by
  obtain ⟨before, rfl, rfl⟩ := Memory.eq_of_extent hold
  have hk : kernel left right (Memory.size ⟨s, before⟩) = .ok elements := hk
  simp [runBinary, typedInput, writeFirst, hk]

variable {kind : OperationKind} {t : DataType} {spec : WorkloadSpec} {a b : Descriptor}

theorem computes_copy (hid : ∀ m, spec.operation.result? f [a] b [m] = some m)
    (ha : a.extent = b.extent) (ht : b.dataType = t) :
    (Reference.unary kind t spec Kernel.copy).Computes f [a] b := by
  subst ht
  intro memories old hmem hold
  obtain ⟨m, rfl, hm⟩ : ∃ m, memories = [m] ∧ m.extent = b.extent := by
    cases memories with
    | nil => simp at hmem
    | cons m rest => cases rest <;> simp_all
  obtain ⟨data, rfl, hdata⟩ := Memory.eq_of_extent hm
  exact ⟨_, hid _, hm, runUnary_ok ⟨data, hdata⟩ hold (by simp [Kernel.copy, hdata])⟩

theorem computes_gather {p : Permutation} (hp : spec.operation.reading? = some p)
    (hr : p.axes.length = a.shape.dims.length) (hd : gatherDims a.shape.dims p.axes = b.shape.dims)
    (ha : a.dataType = b.dataType) (ht : b.dataType = t) :
    (Reference.unary kind t spec (Kernel.gather (gatherTable a.shape.dims p.axes))).Computes
      f [a] b := by
  subst ht
  intro memories old hmem hold
  obtain ⟨m, rfl, hm⟩ : ∃ m, memories = [m] ∧ m.extent = ⟨b.dataType.storage, a.numElements⟩ := by
    cases memories with
    | nil => simp at hmem
    | cons m rest => cases rest <;> simp_all [Descriptor.extent]
  obtain ⟨data, rfl, hdata⟩ := Memory.eq_of_extent hm
  have hvolume : volume (gatherDims a.shape.dims p.axes) = a.numElements := volume_gatherDims p hr
  have hlen : (gatherTable a.shape.dims p.axes).length = b.numElements := by
    rw [length_gatherTable, hd]
    rfl
  have hsize : data.size = (gatherTable a.shape.dims p.axes).length ∧
      b.numElements = (gatherTable a.shape.dims p.axes).length :=
    ⟨by rw [hdata, length_gatherTable, hvolume], hlen.symm⟩
  refine ⟨_, Operation.result?_of_reading hp _, ?_, ?_⟩
  · rw [Memory.extent_reorder, hd]
    rfl
  · rw [Memory.reorder, ← gathered_gatherTable p.rearranged hr]
    exact runUnary_ok ⟨_, (Kernel.size_gathered _ _).trans hlen⟩ hold
      (by rw [Kernel.gather, dif_pos hsize])

theorem adding_ok {i j o : SlotRef} {c : Descriptor}
    (add : BitVec t.storage.bits → BitVec t.storage.bits → BitVec t.storage.bits)
    (hop : spec.operation = .addition) (h : spec.operation.Takes [a, c] b)
    (hin : spec.inputs = [⟨i, a⟩, ⟨j, c⟩]) (hout : spec.outputs = [⟨o, b⟩])
    (ht : b.dataType = t) (hc : c.shape = a.shape) (hb : a.shape = b.shape) :
    ∃ w, Reference.adding t add spec = .ok w ∧ w.spec = spec ∧ w.dataType = t ∧
      w.run = runBinary (workloadName "Ref" .addition t) t.storage (Kernel.sum add) := by
  have hkind : spec.operation.kind = .addition := by rw [hop]; rfl
  have hcheck := Reference.checkSpec_ok hkind h (by simp [hin]) (by simp [hout]) ht
  rw [Reference.adding, hcheck, hin, hout]
  simp only [bind, Except.bind, hc, hb, ne_eq, not_true_eq_false, or_self, if_false]
  exact ⟨_, rfl, rfl, rfl, rfl⟩

theorem computes_sum {w : Workload} {c : Descriptor}
    {add : BitVec b.dataType.storage.bits → BitVec b.dataType.storage.bits →
      BitVec b.dataType.storage.bits}
    (hadd : f.at? b.dataType = some add) (hop : w.spec.operation = .addition)
    (hrun : w.run = runBinary name b.dataType.storage (Kernel.sum add))
    (ha : a.extent = b.extent) (hc : c.extent = b.extent) : w.Computes f [a, c] b := by
  intro memories old hmem hold
  obtain ⟨l, r, rfl, hl, hr⟩ :
      ∃ l r, memories = [l, r] ∧ l.extent = b.extent ∧ r.extent = b.extent := by
    obtain _ | ⟨l, _ | ⟨r, _ | ⟨_, _⟩⟩⟩ := memories <;> simp_all
  obtain ⟨left, rfl, hleft⟩ := Memory.eq_of_extent hl
  obtain ⟨right, rfl, hright⟩ := Memory.eq_of_extent hr
  have hsize : left.size = b.numElements ∧ right.size = b.numElements := ⟨hleft, hright⟩
  have hzip : (Array.zipWith add left right).size = b.numElements := by simp [hleft, hright]
  refine ⟨⟨b.dataType.storage, Array.zipWith add left right⟩, ?_, ?_, ?_⟩
  · simp [hop, Operation.result?, Memory.add?, hadd]
  · simp only [Memory.extent, Memory.size, hzip]
    rfl
  · rw [hrun]
    exact runBinary_ok ⟨_, hzip⟩ hold (by rw [Kernel.sum, dif_pos hsize])

end Runs

section Create

variable {f : FloatAddition} {spec : WorkloadSpec} {reads : List Descriptor} {written : Descriptor}

theorem create_of_constructor {t : DataType} {c : WorkloadConstructor} {w : Workload}
    (ht : t ∈ Reference.types spec.operation.kind)
    (hc : Reference.constructor? f spec.operation.kind t = some c) (hw : c spec = .ok w)
    (hwt : w.dataType = t) :
    (referenceBackend f).registry.create spec referenceId t = .ok w := by
  rw [Registry.create, Reference.find?_registry.2 ⟨ht, hc⟩]
  simp only [hw, hwt, if_true]

/-- What the reference backend can create: only workloads of listed types. -/
theorem mem_types_of_create {t : DataType} {w : Workload}
    (h : (referenceBackend f).registry.create spec referenceId t = .ok w) :
    t ∈ Reference.types spec.operation.kind := by
  rw [Registry.create] at h
  cases hf : (referenceBackend f).registry.find? ⟨spec.operation.kind, referenceId, t⟩ with
  | none => simp [hf] at h
  | some c => exact (Reference.find?_registry.1 hf).1

variable {a b : Descriptor}

/-- Creation for the operations that copy what they read. -/
theorem create_copying (h : spec.operation.Takes [a] b)
    (hin : spec.inputs.map (·.descriptor) = [a]) (hout : spec.outputs.map (·.descriptor) = [b])
    (ht : b.dataType ∈ Reference.types spec.operation.kind)
    (hc : ∀ t, Reference.constructor? f spec.operation.kind t =
      some (Reference.copying spec.operation.kind t))
    (hid : ∀ m, spec.operation.result? f [a] b [m] = some m) (hn : a.numElements = b.numElements)
    (htarget : ∀ kind t, Reference.checkTarget kind t spec.operation b = .ok ()) :
    ∃ w, (referenceBackend f).registry.create spec referenceId b.dataType = .ok w ∧
      w.spec = spec ∧ w.Computes f [a] b := by
  obtain ⟨⟨i, _⟩, hi, rfl⟩ := List.map_eq_singleton_iff.1 hin
  obtain ⟨⟨o, _⟩, ho, rfl⟩ := List.map_eq_singleton_iff.1 hout
  have hw := Reference.copying_ok rfl h hi ho rfl hn (htarget _ _)
  refine ⟨_, create_of_constructor ht (hc _) hw rfl, rfl, computes_copy hid ?_ rfl⟩
  rw [Descriptor.extent, Descriptor.extent, hn, h.dataType_eq _ List.mem_cons_self]

theorem create_reordering {p : Permutation} (h : spec.operation.Takes [a] b)
    (hin : spec.inputs.map (·.descriptor) = [a]) (hout : spec.outputs.map (·.descriptor) = [b])
    (ht : b.dataType ∈ Reference.types spec.operation.kind)
    (hp : spec.operation.reading? = some p) (hr : p.axes.length = a.shape.dims.length)
    (hd : gatherDims a.shape.dims p.axes = b.shape.dims) :
    ∃ w, (referenceBackend f).registry.create spec referenceId b.dataType = .ok w ∧
      w.spec = spec ∧ w.Computes f [a] b := by
  obtain ⟨⟨i, _⟩, hi, rfl⟩ := List.map_eq_singleton_iff.1 hin
  obtain ⟨⟨o, _⟩, ho, rfl⟩ := List.map_eq_singleton_iff.1 hout
  have hc : ∀ t, Reference.constructor? f spec.operation.kind t =
      some (Reference.reordering spec.operation.kind t) := by
    intro t
    rcases Operation.kind_of_reading hp with hk | hk <;> rw [hk] <;> rfl
  have hw := Reference.reordering_ok rfl h hi ho rfl hp hr hd
  exact ⟨_, create_of_constructor ht (hc _) hw rfl, rfl,
    computes_gather hp hr hd (h.dataType_eq _ List.mem_cons_self) rfl⟩

theorem create_adding {c : Descriptor} (hop : spec.operation = .addition)
    (h : spec.operation.Takes [a, c] b) (hin : spec.inputs.map (·.descriptor) = [a, c])
    (hout : spec.outputs.map (·.descriptor) = [b])
    (ht : b.dataType ∈ Reference.types spec.operation.kind)
    (hc : c.shape = a.shape) (hb : a.shape = b.shape) :
    ∃ w, (referenceBackend f).registry.create spec referenceId b.dataType = .ok w ∧
      w.spec = spec ∧ w.Computes f [a, c] b := by
  have hkind : spec.operation.kind = .addition := by rw [hop]; rfl
  obtain ⟨⟨i, _⟩, rest, hi, rfl, hrest⟩ := List.map_eq_cons_iff.1 hin
  obtain ⟨⟨j, _⟩, rfl, rfl⟩ := List.map_eq_singleton_iff.1 hrest
  obtain ⟨⟨o, _⟩, ho, rfl⟩ := List.map_eq_singleton_iff.1 hout
  obtain ⟨_, hconstructor⟩ := Reference.constructor?_isSome (f := f) ht
  rw [hkind] at hconstructor
  obtain ⟨add, hadd, rfl⟩ := Option.map_eq_some_iff.1 hconstructor
  obtain ⟨w, hw, hspec, hwt, hrun⟩ := adding_ok add hop h hi ho rfl hc hb
  refine ⟨w, create_of_constructor ht (by rw [hkind]; exact hconstructor) hw hwt, hspec, ?_⟩
  exact computes_sum hadd (hspec ▸ hop) hrun
    (Descriptor.extent_congr hb (h.dataType_eq _ (by simp)))
    (Descriptor.extent_congr (hc.trans hb) (h.dataType_eq _ (by simp)))

theorem create_ok (h : spec.operation.Takes reads written)
    (hin : spec.inputs.map (·.descriptor) = reads)
    (hout : spec.outputs.map (·.descriptor) = [written])
    (ht : written.dataType ∈ Reference.types spec.operation.kind) :
    ∃ w, (referenceBackend f).registry.create spec referenceId written.dataType = .ok w ∧
      w.spec = spec ∧ w.Computes f reads written := by
  have htakes := h
  generalize hop : spec.operation = operation at h
  cases h with
  | input id d | output id d =>
    exact create_copying htakes hin hout ht (by simp [hop, Operation.kind, Reference.constructor?])
      (by simp [hop, Operation.result?]) rfl (by simp [hop, Reference.checkTarget])
  | reshape hn _ =>
    exact create_copying htakes hin hout ht (by simp [hop, Operation.kind, Reference.constructor?])
      (by simp [hop, Operation.result?]) hn (by simp [hop, Reference.checkTarget])
  | reorder hp hr hd _ => exact create_reordering htakes hin hout ht (hop ▸ hp) hr hd
  | addition hc hb _ _ => exact create_adding hop htakes hin hout ht hc hb

/-- Memories that fit what an operation reads give one that fits what it writes. -/
theorem Operation.Takes.exists_result {operation : Operation} (h : operation.Takes reads written)
    (ht : written.dataType ∈ Reference.types operation.kind) {memories : List Memory}
    (hm : memories.map Memory.extent = reads.map Descriptor.extent) :
    ∃ m, operation.result? f reads written memories = some m ∧ m.extent = written.extent := by
  let spec : WorkloadSpec :=
    ⟨0, "", operation, reads.map fun d => ⟨.boundInput 0, d⟩, [⟨.boundOutput 0, written⟩]⟩
  have htakes : spec.operation.Takes reads written := h
  obtain ⟨w, -, hspec, hw⟩ :=
    create_ok (f := f) htakes (by simp [spec, Function.comp_def]) rfl ht
  obtain ⟨m, hresult, hextent, -⟩ := hw memories (.zeroed written.dataType.storage
    written.numElements) hm (by simp [Descriptor.extent])
  exact ⟨m, by simpa [hspec] using hresult, hextent⟩

end Create

end LayerGraph
