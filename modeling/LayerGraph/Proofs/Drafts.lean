import LayerGraph.Network.Draft
import LayerGraph.Proofs.Conventions
import LayerGraph.Proofs.IndexRange
import LayerGraph.Proofs.RoundTrip
import Mathlib.Data.Set.List

/-!
# Reading checks what it reads

Every reader of a definition agrees with the reader of drafts that checks nothing: it gives a
value exactly where the draft is the value's own. The valid drafts are those that have a value.
So no text brings in a shape, a permutation or a descriptor that would be refused elsewhere.
-/

set_option autoImplicit false

namespace LayerGraph

theorem toOption_eq_some_iff {ε α : Type} {x : Except ε α} {a : α} :
    x.toOption = some a ↔ x = .ok a := by
  cases x <;> simp [Except.toOption]

/-- Items read one by one by two readers of which one says what the other leaves out. -/
theorem mapM_eq_some_iff_map {α β γ : Type} {f : α → Option β} {g : α → Option γ} {forget : β → γ}
    (h : ∀ a b, f a = some b ↔ g a = some (forget b)) (items : List α) (values : List β) :
    items.mapM f = some values ↔ items.mapM g = some (values.map forget) := by
  induction items generalizing values with
  | nil => cases values <;> simp
  | cons a items ih =>
    simp only [List.mapM_cons, Option.bind_eq_bind, Option.bind_eq_some_iff]
    constructor
    · rintro ⟨b, hb, rest, hrest, hvalues⟩
      cases hvalues
      exact ⟨_, (h a b).1 hb, _, (ih rest).1 hrest, rfl⟩
    · rintro ⟨c, hc, rest, hrest, hvalues⟩
      cases values with
      | nil => cases hvalues
      | cons b values =>
        cases hvalues
        exact ⟨b, (h a b).2 hc, values, (ih values).2 hrest, rfl⟩

theorem listOfJson?_eq_some_iff {β γ : Type} {f : Json → Option β} {g : Json → Option γ}
    {forget : β → γ} (h : ∀ j b, f j = some b ↔ g j = some (forget b)) {j : Option Json}
    {values : List β} :
    listOfJson? f j = some values ↔ listOfJson? g j = some (values.map forget) := by
  cases j with
  | none => simp [listOfJson?, eq_comm]
  | some j =>
    simp only [listOfJson?, Option.bind_eq_some_iff, mapM_eq_some_iff_map h]

namespace Shape

theorem eq_of_dims {s t : Shape} (h : s.dims = t.dims) : s = t := by
  cases s
  cases t
  cases h
  rfl

theorem ofJson?_eq_some_iff {j : Json} {s : Shape} :
    ofJson? j = some s ↔ j.asNats? = some s.dims := by
  simp [ofJson?, Option.bind_eq_some_iff, toOption_eq_some_iff, ofDims_eq_ok_iff]

end Shape

theorem isShape_iff {dims : List Nat} : IsShape dims ↔ ∃ s : Shape, s.dims = dims := by
  constructor
  · rintro ⟨hne, hpos, hlt⟩
    exact ⟨⟨dims, hne, hpos, hlt⟩, rfl⟩
  · rintro ⟨s, rfl⟩
    exact ⟨s.dims_ne_nil, s.dims_pos, s.volume_lt⟩

namespace Permutation

theorem ofAxes?_eq_some_iff {axes : List Nat} {p : Permutation} :
    ofAxes? axes = some p ↔ axes = p.axes := by
  constructor
  · intro h
    rw [ofAxes?] at h
    split at h
    · rw [← Option.some.inj h]
    · cases h
  · rintro rfl
    exact p.ofAxes?_axes

theorem ofJson?_eq_some_iff {j : Json} {p : Permutation} :
    ofJson? j = some p ↔ j.asNats? = some p.axes := by
  simp [ofJson?, Option.bind_eq_some_iff, ofAxes?_eq_some_iff]

end Permutation

theorem isPermutation_iff {axes : List Nat} :
    IsPermutation axes ↔ ∃ p : Permutation, p.axes = axes := by
  constructor
  · intro h
    exact ⟨⟨axes, h⟩, rfl⟩
  · rintro ⟨p, rfl⟩
    exact p.rearranged

/-- The patterns of the finite numbers above zero are those between zero and infinity. -/
theorem Quantization.isScale_iff {scale : BitVec 32} : isScale scale = true ↔
    0 < scale.toNat ∧ scale.toNat < BinaryFormat.single.infinityBits := by
  have hbound : scale.toNat < 4294967296 := scale.isLt
  have hsign : BinaryFormat.single.signBit = 2147483648 := rfl
  have htop : BinaryFormat.single.topField = 255 := rfl
  have hinf : BinaryFormat.single.infinityBits = 2139095040 := rfl
  have hfraction : (1 <<< BinaryFormat.single.fractionBits : Nat) = 8388608 := rfl
  have hexponent : (1 <<< BinaryFormat.single.exponentBits : Nat) = 256 := rfl
  have hshift : scale.toNat >>> BinaryFormat.single.fractionBits = scale.toNat / 8388608 :=
    Nat.shiftRight_eq_div_pow _ _
  rw [isScale, BinaryFormat.decode, hsign, htop, hinf, hfraction, hexponent, hshift]
  generalize scale.toNat = n at hbound ⊢
  by_cases hfield : n / 8388608 % 256 = 255
  · have hlarge : ¬ n < 2139095040 := by omega
    simp only [if_pos hfield, hlarge, and_false, iff_false]
    by_cases hzero : n % 8388608 = 0
    · simp [hzero]
    · simp [hzero]
  · rw [if_neg hfield]
    by_cases hzero : n / 8388608 % 256 = 0
    · simp only [if_pos hzero, Bool.and_eq_true, Bool.not_eq_true', decide_eq_false_iff_not,
        bne_iff_ne]
      omega
    · simp only [if_neg hzero, Bool.and_eq_true, Bool.not_eq_true', decide_eq_false_iff_not,
        bne_iff_ne]
      omega

theorem DataType.admits_iff {t : DataType} {q : Option Quantization} : t.Admits q ↔
    q.isSome = t.isQuantized ∧ ∀ info, q = some info →
      Quantization.isScale info.scale = true ∧ (t.isSymmetric = true → info.offset = 0) := by
  cases q with
  | none => simp [Admits]
  | some info => simp [Admits]

namespace Descriptor

variable {j : Json} {d : Descriptor}

theorem make_eq_ok_iff {shape : Shape} {t : DataType} {q : Option Quantization} :
    make shape t q = .ok d ↔ d.shape = shape ∧ d.dataType = t ∧ d.quantization = q := by
  constructor
  · intro h
    cases q with
    | none =>
      rw [make] at h
      split at h
      · cases h
      · cases h
        exact ⟨rfl, rfl, rfl⟩
    | some q =>
      rw [make] at h
      split at h
      · split at h
        · split at h
          · cases h
          · cases h
            exact ⟨rfl, rfl, rfl⟩
        · cases h
      · cases h
  · rintro ⟨rfl, rfl, rfl⟩
    exact d.make_eq

theorem ofJson?_eq_some_iff : ofJson? j = some d ↔ DescriptorDraft.ofJson? j = some d.draft := by
  rw [ofJson?]
  split
  · rename_i hfields
    rw [DescriptorDraft.ofJson?, hfields]
    simp only [Option.bind_eq_bind, Option.bind_eq_some_iff, Shape.ofJson?_eq_some_iff,
      toOption_eq_some_iff, make_eq_ok_iff]
    constructor
    · rintro ⟨s, hs, t, ht, q, hq, rfl, rfl, rfl⟩
      exact ⟨_, hs, _, ht, _, hq, rfl⟩
    · rintro ⟨dims, hs, t, ht, q, hq, hdraft⟩
      cases hdraft
      exact ⟨_, hs, _, ht, _, hq, rfl, rfl, rfl⟩
  · rename_i hother
    have hdraft : DescriptorDraft.ofJson? j = none := by
      rw [DescriptorDraft.ofJson?]
      split
      · exact absurd ‹_› (hother _ _ _)
      · rfl
    simp [hdraft]

end Descriptor

theorem DescriptorDraft.valid_iff {raw : DescriptorDraft} :
    raw.Valid ↔ ∃ d : Descriptor, d.draft = raw := by
  constructor
  · rintro ⟨hshape, hquantized, hscale, hoffset⟩
    obtain ⟨s, hs⟩ := isShape_iff.1 hshape
    have hadmitted : raw.dataType.Admits raw.quantization :=
      DataType.admits_iff.2 ⟨hquantized, fun q hq =>
        ⟨Quantization.isScale_iff.2 (hscale q hq), hoffset q hq⟩⟩
    exact ⟨⟨s, raw.dataType, raw.quantization, hadmitted⟩, by rw [Descriptor.draft, hs]⟩
  · rintro ⟨d, rfl⟩
    obtain ⟨hquantized, hinfo⟩ := DataType.admits_iff.1 d.admitted
    exact ⟨isShape_iff.2 ⟨d.shape, rfl⟩, hquantized,
      fun q hq => Quantization.isScale_iff.1 (hinfo q hq).1, fun q hq => (hinfo q hq).2⟩

namespace Operation

variable {j : Json} {op : Operation}

/-- An operation that is one value made of a list: read, it is wrapped, and so is its list. -/
theorem listed_eq_some_iff {α : Type} {read : Json → Option α} {list : α → List Nat}
    {wrap : α → Operation} {raw : List Nat → OperationDraft}
    (hread : ∀ j a, read j = some a ↔ j.asNats? = some (list a))
    (hraw : ∀ op ns, draft op = raw ns ↔ ∃ a, wrap a = op ∧ list a = ns) {value : Option Json} :
    (value.bind fun j => (read j).map wrap) = some op ↔
      (value.bind fun j => j.asNats?.map raw) = some op.draft := by
  simp only [Option.bind_eq_some_iff, Option.map_eq_some_iff]
  constructor
  · rintro ⟨j, hj, a, ha, rfl⟩
    exact ⟨j, hj, list a, (hread j a).1 ha, ((hraw _ _).2 ⟨a, rfl, rfl⟩).symm⟩
  · rintro ⟨j, hj, ns, hns, hdraft⟩
    obtain ⟨a, rfl, rfl⟩ := (hraw op ns).1 hdraft.symm
    exact ⟨j, hj, a, (hread j a).2 hns, rfl⟩

theorem draft_eq_permute_iff {axes : List Nat} :
    op.draft = .permute axes ↔ ∃ p, permute p = op ∧ p.axes = axes := by
  cases op <;> simp [draft]

theorem draft_eq_transpose_iff {axes : List Nat} :
    op.draft = .transpose axes ↔ ∃ p, transpose p = op ∧ p.axes = axes := by
  cases op <;> simp [draft]

theorem draft_eq_reshape_iff {dims : List Nat} :
    op.draft = .reshape dims ↔ ∃ s, reshape s = op ∧ s.dims = dims := by
  cases op <;> simp [draft]

theorem draft_injective : Function.Injective draft := by
  intro a b h
  cases a with
  | permute p =>
    obtain ⟨q, rfl, hq⟩ := draft_eq_permute_iff.1 h.symm
    rw [Permutation.eq_of_axes hq]
  | transpose p =>
    obtain ⟨q, rfl, hq⟩ := draft_eq_transpose_iff.1 h.symm
    rw [Permutation.eq_of_axes hq]
  | reshape s =>
    obtain ⟨t, rfl, ht⟩ := draft_eq_reshape_iff.1 h.symm
    rw [Shape.eq_of_dims ht]
  | _ =>
    cases b <;> cases h
    rfl

theorem ofParameters?_eq_some_iff {kind : String} {parameters : Json} :
    ofParameters? kind parameters = some op ↔
      OperationDraft.ofParameters? kind parameters = some op.draft := by
  rw [OperationDraft.ofParameters?]
  by_cases hpermute : kind = "permute"
  · subst hpermute
    exact listed_eq_some_iff (fun _ _ => Permutation.ofJson?_eq_some_iff)
      fun _ _ => draft_eq_permute_iff
  by_cases htranspose : kind = "transpose"
  · subst htranspose
    exact listed_eq_some_iff (fun _ _ => Permutation.ofJson?_eq_some_iff)
      fun _ _ => draft_eq_transpose_iff
  by_cases hreshape : kind = "reshape"
  · subst hreshape
    exact listed_eq_some_iff (fun _ _ => Shape.ofJson?_eq_some_iff) fun _ _ => draft_eq_reshape_iff
  rw [if_neg hpermute, if_neg htranspose, if_neg hreshape, Option.map_eq_some_iff]
  constructor
  · exact fun h => ⟨op, h, rfl⟩
  · rintro ⟨found, hfound, hdraft⟩
    exact draft_injective hdraft ▸ hfound

theorem ofJson?_eq_some_iff {enclosing : Nat} :
    ofJson? enclosing j = some op ↔ OperationDraft.ofJson? enclosing j = some op.draft := by
  unfold ofJson? OperationDraft.ofJson?
  by_cases hread : j.isReadable (Json.nestingLimit - enclosing) = true
  · rw [if_pos hread, if_pos hread]
    cases j with
    | array items =>
      cases items with
      | nil => simp
      | cons kind parameters => simp only [Option.bind_eq_some_iff, ofParameters?_eq_some_iff]
    | object fields =>
      dsimp only
      generalize fields.filter (fun entry => entry.1 == some "kind") = kinds
      rcases kinds with _ | ⟨⟨key, kind⟩, _ | ⟨second, rest⟩⟩
      · simp
      · simp only [Option.bind_eq_some_iff, ofParameters?_eq_some_iff]
      · simp
    | _ => simp
  · simp [hread]

end Operation

theorem OperationDraft.valid_iff {raw : OperationDraft} :
    raw.Valid ↔ ∃ op : Operation, op.draft = raw := by
  cases raw with
  | permute axes => simp [Valid, Operation.draft_eq_permute_iff, isPermutation_iff]
  | transpose axes => simp [Valid, Operation.draft_eq_transpose_iff, isPermutation_iff]
  | reshape dims => simp [Valid, Operation.draft_eq_reshape_iff, isShape_iff]
  | input id => exact iff_of_true trivial ⟨.input id, rfl⟩
  | output id => exact iff_of_true trivial ⟨.output id, rfl⟩
  | addition => exact iff_of_true trivial ⟨.addition, rfl⟩

namespace Layer

variable {j : Json} {l : Layer}

theorem ofJson?_eq_some_iff : ofJson? j = some l ↔ LayerDraft.ofJson? j = some l.draft := by
  rw [ofJson?]
  split
  · rename_i hfields
    rw [LayerDraft.ofJson?, hfields]
    simp only [Option.bind_eq_bind, Option.bind_eq_some_iff, Operation.ofJson?_eq_some_iff,
      listOfJson?_eq_some_iff fun _ _ => Descriptor.ofJson?_eq_some_iff]
    constructor
    · rintro ⟨name, hname, op, hop, inputs, hinputs, outputs, houtputs, hl⟩
      cases hl
      exact ⟨_, hname, _, hop, _, hinputs, _, houtputs, rfl⟩
    · rintro ⟨name, hname, op, hop, inputs, hinputs, outputs, houtputs, hdraft⟩
      cases hdraft
      exact ⟨_, hname, _, hop, _, hinputs, _, houtputs, rfl⟩
  · rename_i hother
    have hdraft : LayerDraft.ofJson? j = none := by
      rw [LayerDraft.ofJson?]
      split
      · exact absurd ‹_› (hother _ _ _ _)
      · rfl
    simp [hdraft]

end Layer

theorem LayerDraft.valid_iff {raw : LayerDraft} : raw.Valid ↔ ∃ l : Layer, l.draft = raw := by
  constructor
  · rintro ⟨hop, houtputs⟩
    obtain ⟨op, hop⟩ := OperationDraft.valid_iff.1 hop
    obtain ⟨outputs, houtputs⟩ : raw.outputs ∈ Set.range (List.map Descriptor.draft) := by
      rw [Set.range_list_map]
      exact fun d hd => DescriptorDraft.valid_iff.1 (houtputs d hd)
    exact ⟨⟨raw.name, op, raw.inputs, outputs⟩, by rw [Layer.draft, hop, houtputs]⟩
  · rintro ⟨l, rfl⟩
    refine ⟨OperationDraft.valid_iff.2 ⟨l.operation, rfl⟩, fun d hd => ?_⟩
    obtain ⟨x, -, rfl⟩ := List.mem_map.1 hd
    exact DescriptorDraft.valid_iff.2 ⟨x, rfl⟩

namespace Definition

theorem parse?_eq_some_iff {text : String} {d : Definition} :
    parse? text = some d ↔ draft? text = some (d.layers.map Layer.draft) := by
  rw [parse?, draft?, Option.bind_eq_some_iff, Option.bind_eq_some_iff]
  refine exists_congr fun j => and_congr_right fun _ => ?_
  rw [ofJson?]
  split
  · rename_i hfields
    rw [draftOfJson?, hfields]
    simp only [Option.bind_eq_bind, Option.bind_eq_some_iff,
      ← mapM_eq_some_iff_map fun _ _ => Layer.ofJson?_eq_some_iff]
    constructor
    · rintro ⟨items, hitems, layers, hlayers, hd⟩
      cases hd
      exact ⟨items, hitems, hlayers⟩
    · rintro ⟨items, hitems, hlayers⟩
      exact ⟨items, hitems, _, hlayers, rfl⟩
  · rename_i hother
    have hdraft : draftOfJson? j = none := by
      rw [draftOfJson?]
      split
      · exact absurd ‹_› (hother _)
      · rfl
    simp [hdraft]

/-- Reading validates. What a text gives is what it describes, with every shape, permutation and
descriptor valid and every element count the product of the dimensions; and a text that describes
layers is read exactly when all of them are valid. -/
theorem parse?_valid (text : String) :
    (∀ d, parse? text = some d → draft? text = some (d.layers.map Layer.draft) ∧
      ∀ l ∈ d.layers, l.draft.Valid ∧
        ∀ s ∈ l.shapes, Bounded.count? s.dims = some s.numElements) ∧
    ∀ drafts, draft? text = some drafts →
      ((∃ d, parse? text = some d) ↔ ∀ l ∈ drafts, l.Valid) := by
  refine ⟨fun d hd => ⟨parse?_eq_some_iff.1 hd, fun l _ => ⟨LayerDraft.valid_iff.2 ⟨l, rfl⟩,
    fun s _ => Bounded.count?_eq s.dims_pos s.volume_lt⟩⟩, fun drafts hdrafts => ?_⟩
  constructor
  · rintro ⟨d, hd⟩ l hl
    have heq : drafts = d.layers.map Layer.draft :=
      Option.some.inj (hdrafts.symm.trans (parse?_eq_some_iff.1 hd))
    obtain ⟨layer, -, rfl⟩ := List.mem_map.1 (heq ▸ hl)
    exact LayerDraft.valid_iff.2 ⟨layer, rfl⟩
  · intro hvalid
    obtain ⟨layers, rfl⟩ : drafts ∈ Set.range (List.map Layer.draft) := by
      rw [Set.range_list_map]
      exact fun l hl => LayerDraft.valid_iff.1 (hvalid l hl)
    exact ⟨⟨layers⟩, parse?_eq_some_iff.2 hdrafts⟩

/-- A reshape is read from array form, with the descriptors beside it. One to a dimension of
zero is described and not read. -/
theorem parse?_valid_reshape :
    let layer : LayerDraft := ⟨"r", .reshape [2, 3], [],
      [⟨[2, 3], .float32, none⟩, ⟨[6], .qsymmS8, some ⟨0x3f000000, 0⟩⟩]⟩
    let accepted := "\x7b\"layers\":[[\"r\",[\"reshape\",[2,3]],[]," ++
      "[[[2,3],\"Float32\",null],[[6],\"QSymmS8\",[0.5,0]]]]]\x7d"
    let refused := "\x7b\"layers\":[\x7b\"name\":\"r\",\"operation\":\x7b\"kind\":\"reshape\"," ++
      "\"target_shape\":[2,0]\x7d\x7d]\x7d"
    (∃ d, parse? accepted = some d ∧ d.layers.map Layer.draft = [layer] ∧
      ∀ l ∈ d.layers, l.draft.Valid ∧
        ∀ s ∈ l.shapes, Bounded.count? s.dims = some s.numElements) ∧
    draft? refused = some [⟨"r", .reshape [2, 0], [], []⟩] ∧ parse? refused = none := by
  intro layer accepted refused
  constructor
  · have hdraft : draft? accepted = some [layer] := by decide +kernel
    have hplain : DescriptorDraft.Valid ⟨[2, 3], .float32, none⟩ :=
      ⟨⟨by decide, by decide, by decide⟩, by decide, nofun, nofun⟩
    have hscaled : DescriptorDraft.Valid ⟨[6], .qsymmS8, some ⟨0x3f000000, 0⟩⟩ := by
      refine ⟨⟨by decide, by decide, by decide⟩, by decide, ?_, ?_⟩ <;>
        · rintro q ⟨⟩
          decide
    have hvalid : ∀ l ∈ [layer], l.Valid := by
      refine List.forall_mem_singleton.2 ⟨hplain.shape, ?_⟩
      simpa [layer] using And.intro hplain hscaled
    obtain ⟨d, hd⟩ := ((parse?_valid accepted).2 _ hdraft).2 hvalid
    obtain ⟨hsame, hall⟩ := (parse?_valid accepted).1 d hd
    exact ⟨d, hd, Option.some.inj (hsame.symm.trans hdraft), hall⟩
  · have hdraft : draft? refused = some [⟨"r", .reshape [2, 0], [], []⟩] := by decide +kernel
    refine ⟨hdraft, Option.eq_none_iff_forall_ne_some.2 fun d hd => ?_⟩
    have hvalid := ((parse?_valid refused).2 _ hdraft).1 ⟨d, hd⟩ _ (List.mem_singleton_self _)
    exact absurd (hvalid.operation.pos 0 (by decide)) (by decide)

end Definition

end LayerGraph
