import LayerGraph.Network.Definition
import LayerGraph.Proofs.Execution
import LayerGraph.Proofs.Magnitudes
import LayerGraph.Proofs.Parsing

/-!
# Definitions in text

What is written for a part of a definition reads back as that part: a record by the names of
its fields, a list item by item, a number by its digits, and a shape, permutation or
descriptor through the constructor that accepted it. The numbers of a definition are
canonical, so a definition reads back from its text.
-/

set_option autoImplicit false

namespace LayerGraph

theorem mapM_map_eq_some {α β : Type} {write : α → β} {read : β → Option α} {l : List α}
    (h : ∀ x ∈ l, read (write x) = some x) : (l.map write).mapM read = some l := by
  induction l with
  | nil => rfl
  | cons x l ih =>
    rw [List.map_cons, List.mapM_cons, h x List.mem_cons_self,
      ih fun y hy => h y (List.mem_cons_of_mem _ hy)]
    rfl

namespace Json

variable {fields : List (String × Json)} {names : List String}

theorem record_eq (fields : List (String × Json)) :
    record fields = .object (fields.map fun entry => (some entry.1, entry.2)) := rfl

theorem field?_map (fields : List (String × Json)) (name : String) :
    field? (fields.map fun entry => (some entry.1, entry.2)) name = fields.lookup name := by
  induction fields with
  | nil => rfl
  | cons entry fields ih =>
    rw [field?, List.map_cons, List.find?_cons, lookup_cons_eq, ← ih]
    by_cases hname : name = entry.1
    · simp [hname]
    · have hkey : (some entry.1 == some name) = false := by simpa using Ne.symm hname
      rw [hkey, if_neg hname]
      rfl

/-- A record with distinct names has a field for each name that it gives a value. -/
theorem record?_record (hn : (fields.map (·.1)).Nodup) (names : List String) :
    (record fields).record? names = some (names.map fun name => fields.lookup name) := by
  have hkeys : (fields.map fun entry => (some entry.1, entry.2)).map (·.1) =
      (fields.map (·.1)).map some := by simp
  have hcount : ∀ name, ((fields.map (·.1)).map some).count (some name) ≤ 1 := fun name =>
    List.nodup_iff_count_le_one.1 (hn.map (Option.some_injective _)) (some name)
  have hall : ((fields.map (·.1)).map some).all Option.isSome = true := by simp
  have hsingle : names.all (fun name =>
      decide (((fields.map (·.1)).map some).count (some name) ≤ 1)) = true :=
    List.all_eq_true.2 fun name _ => decide_eq_true (hcount name)
  simp only [record_eq, record?, hkeys, hall, hsingle, Bool.and_self, if_true]
  exact congrArg some (List.map_congr_left fun name _ => field?_map fields name)

theorem asNat?_nat (n : Nat) : (nat n).asNat? = some n := by
  simp [asNat?, nat, asInt?, Numeral.toInt?_ofNat]

theorem asInt32?_int (i : Int32) : (int i.toInt).asInt32? = some i := by
  have hbounds := And.intro i.minValue_le_toInt i.toInt_le
  rw [asInt32?, int, asInt?, Numeral.toInt?_ofInt, Option.bind_some, if_pos hbounds,
    Int32.ofInt_toInt]

theorem asNats?_nats (ns : List Nat) : asNats? (.array (ns.map nat)) = some ns :=
  mapM_map_eq_some fun n _ => asNat?_nat n

section Readable

variable {depth : Nat}

theorem isReadable_int {i : Int} (h : i.natAbs < indexLimit) : (int i).isReadable depth = true := by
  rw [int, isReadable]
  exact Numeral.toDouble?_ofInt h

theorem isReadable_int32 (i : Int32) : (int i.toInt).isReadable depth = true := by
  have hlow := i.le_toInt
  have hhigh := i.toInt_lt
  have hlimit : indexLimit = 18446744073709551616 := rfl
  exact isReadable_int (by omega)

theorem isReadable_nats {ns : List Nat} (h : ∀ n ∈ ns, n < indexLimit) (hd : 0 < depth) :
    (Json.array (ns.map nat)).isReadable depth = true := by
  rw [isReadable, decide_eq_true hd, Bool.true_and]
  induction ns with
  | nil => rfl
  | cons n ns ih =>
    have hn : (nat n).isReadable (depth - 1) = true := by
      rw [nat, ← Numeral.ofInt_natCast]
      exact isReadable_int (i := n) (h n List.mem_cons_self)
    rw [List.map_cons, areReadable, hn, ih fun m hm => h m (List.mem_cons_of_mem _ hm)]
    rfl

theorem isReadable_record (h : ∀ entry ∈ fields, entry.2.isReadable (depth - 1) = true)
    (hd : 0 < depth) : (record fields).isReadable depth = true := by
  rw [record_eq, isReadable, decide_eq_true hd, Bool.true_and]
  induction fields with
  | nil => rfl
  | cons entry fields ih =>
    rw [List.map_cons, fieldsReadable, h entry List.mem_cons_self,
      ih fun entry' h' => h entry' (List.mem_cons_of_mem _ h')]
    rfl

end Readable

section Canonical

theorem canonical_nat (n : Nat) : (nat n).Canonical := .number (Numeral.canonical_ofNat n)

theorem canonical_int (i : Int) : (int i).Canonical := .number (Numeral.canonical_ofInt i)

theorem canonical_single (bits : Nat) : (single bits).Canonical := by
  rw [single]
  split
  · exact .number (Numeral.canonical_ofSingle? ‹_›)
  · exact .null

theorem canonical_map {α : Type} {write : α → Json} {l : List α}
    (h : ∀ x ∈ l, (write x).Canonical) : (Json.array (l.map write)).Canonical := by
  refine .array fun item hitem => ?_
  obtain ⟨x, hx, rfl⟩ := List.mem_map.1 hitem
  exact h x hx

theorem canonical_record (h : ∀ entry ∈ fields, entry.2.Canonical) : (record fields).Canonical := by
  refine .object fun field hfield => ?_
  obtain ⟨entry, hentry, rfl⟩ := List.mem_map.1 hfield
  exact h entry hentry

end Canonical

end Json

theorem DataType.ofJson?_toJson (t : DataType) : ofJson? t.toJson = some t := ofName?_name t

namespace Shape

theorem ofJson?_toJson (s : Shape) : ofJson? s.toJson = some s := by
  rw [ofJson?, toJson, Json.asNats?_nats, Option.bind_some, ofDims_eq_ok_iff.2 rfl]
  rfl

theorem le_volume {dims : List Nat} (hpos : ∀ d ∈ dims, 0 < d) {dim : Nat} (h : dim ∈ dims) :
    dim ≤ volume dims := by
  induction dims with
  | nil => cases h
  | cons d dims ih =>
    have hrest : ∀ d' ∈ dims, 0 < d' := fun d' h' => hpos d' (List.mem_cons_of_mem _ h')
    rw [volume_cons]
    rcases List.mem_cons.1 h with rfl | h
    · exact Nat.le_mul_of_pos_right _ (volume_pos hrest)
    · exact Nat.le_trans (ih hrest h) (Nat.le_mul_of_pos_left _ (hpos d List.mem_cons_self))

theorem dim_lt (s : Shape) {dim : Nat} (h : dim ∈ s.dims) : dim < indexLimit :=
  Nat.lt_of_le_of_lt (le_volume s.dims_pos h) s.volume_lt

theorem canonical_toJson (s : Shape) : s.toJson.Canonical :=
  Json.canonical_map fun n _ => Json.canonical_nat n

end Shape

namespace Permutation

theorem ofAxes?_axes (p : Permutation) : ofAxes? p.axes = some p := by
  have h : distinctBelow p.axes.length [] p.axes = true :=
    distinctBelow_iff.2 ⟨p.nodup_axes, fun a ha => ⟨(p.mem_axes_iff a).1 ha, List.not_mem_nil⟩⟩
  rw [ofAxes?, dif_pos h]

theorem ofJson?_toJson (p : Permutation) : ofJson? p.toJson = some p := by
  rw [ofJson?, toJson, Json.asNats?_nats, Option.bind_some, ofAxes?_axes]

theorem canonical_toJson (p : Permutation) : p.toJson.Canonical :=
  Json.canonical_map fun n _ => Json.canonical_nat n

end Permutation

namespace Quantization

def ReadsBack (q : Quantization) : Prop := scaleOfJson? (.single q.scale.toNat) = some q.scale

theorem ofJson?_toJson {q : Quantization} (hq : q.ReadsBack) : ofJson? q.toJson = some q := by
  rw [ReadsBack] at hq
  rw [ofJson?, toJson, Json.record?_record (by simp)]
  simp [lookup_cons_eq, hq, Json.asInt32?_int]

theorem canonical_toJson (q : Quantization) : q.toJson.Canonical :=
  Json.canonical_record (by simp [Json.canonical_single, Json.canonical_int])

end Quantization

namespace Descriptor

theorem make_eq (d : Descriptor) : make d.shape d.dataType d.quantization = .ok d := by
  obtain ⟨shape, t, quantization, admitted⟩ := d
  cases quantization with
  | none =>
    have hnot : ¬ t.isQuantized = true := by simpa [DataType.Admits] using admitted
    simp [make, hnot]
  | some q =>
    obtain ⟨hquantized, hscale, hoffset⟩ := admitted
    have hsymmetric : ¬ (t.isSymmetric = true ∧ q.offset ≠ 0) := fun h => h.2 (hoffset h.1)
    simp only [make, dif_pos hquantized, dif_pos hscale, dif_neg hsymmetric]

def ReadsBack (d : Descriptor) : Prop := ∀ q, d.quantization = some q → q.ReadsBack

theorem ofJson?_toJson {d : Descriptor} (hd : d.ReadsBack) : ofJson? d.toJson = some d := by
  have hmake := d.make_eq
  rw [ofJson?, toJson]
  cases hq : d.quantization with
  | none =>
    rw [hq] at hmake
    simp only
    rw [Json.record?_record (by simp)]
    simp [lookup_cons_eq, quantizationOfJson?, Shape.ofJson?_toJson, DataType.ofJson?_toJson, hmake,
      Except.toOption]
  | some q =>
    have hread : quantizationOfJson? (some q.toJson) = some (some q) :=
      congrArg (Option.map some) (Quantization.ofJson?_toJson (hd q hq))
    rw [hq] at hmake
    simp only
    rw [Json.record?_record (by simp)]
    simp [lookup_cons_eq, hread, Shape.ofJson?_toJson, DataType.ofJson?_toJson, hmake,
      Except.toOption]

theorem canonical_toJson (d : Descriptor) : d.toJson.Canonical := by
  have htype : d.dataType.toJson.Canonical := .string _
  rw [toJson]
  split
  · exact Json.canonical_record (by simp [d.shape.canonical_toJson, htype])
  · exact Json.canonical_record (by
      simp [d.shape.canonical_toJson, htype, Quantization.canonical_toJson])

end Descriptor

namespace Operation

def Indexed : Operation → Prop
  | .permute p => ∀ axis ∈ p.axes, axis < indexLimit
  | .transpose p => ∀ axis ∈ p.axes, axis < indexLimit
  | _ => True

theorem parameter?_record (name : String) (value : Json) :
    parameter? name (.record [(name, value)]) = some value := by
  rw [parameter?, Json.record?_record (by simp)]
  simp [lookup_cons_eq]

/-- An operation is read by its kind from the one other field. -/
theorem ofJson?_record {kind name : String} {value : Json} (hname : name ≠ "kind")
    (hvalue : value.isReadable 123 = true) :
    ofJson? Layer.operationDepth (.record [("kind", .text kind), (name, value)]) =
      ofParameters? kind (.record [(name, value)]) := by
  have hread : (Json.record [("kind", .text kind), (name, value)]).isReadable
      (Json.nestingLimit - Layer.operationDepth) = true := by
    refine Json.isReadable_record (fun entry hentry => ?_) (by decide)
    rcases List.mem_pair.1 hentry with rfl | rfl
    · rfl
    · exact hvalue
  have hkind : [(some "kind", Json.text kind), (some name, value)].filter
      (fun entry => entry.1 == some "kind") = [(some "kind", .text kind)] := by simp [hname]
  have hother : [(some "kind", Json.text kind), (some name, value)].filter
      (fun entry => entry.1 != some "kind") = [(some name, value)] := by simp [hname]
  have hrecord : Json.record [("kind", .text kind), (name, value)] =
      .object [(some "kind", .text kind), (some name, value)] := rfl
  rw [hrecord] at hread ⊢
  simp only [ofJson?, hread, if_true, hkind, hother]
  rfl

theorem ofJson?_toJson {op : Operation} (hop : op.Indexed) :
    ofJson? Layer.operationDepth op.toJson = some op := by
  cases op with
  | input id =>
    rw [toJson, ofJson?_record (by decide) (Json.isReadable_int32 id)]
    simp [ofParameters?, parameter?_record, Json.asInt32?_int]
  | output id =>
    rw [toJson, ofJson?_record (by decide) (Json.isReadable_int32 id)]
    simp [ofParameters?, parameter?_record, Json.asInt32?_int]
  | permute p =>
    have hread : p.toJson.isReadable 123 = true := Json.isReadable_nats hop (by decide)
    rw [toJson, ofJson?_record (by decide) hread]
    simp [ofParameters?, parameter?_record, Permutation.ofJson?_toJson]
  | transpose p =>
    have hread : p.toJson.isReadable 123 = true := Json.isReadable_nats hop (by decide)
    rw [toJson, ofJson?_record (by decide) hread]
    simp [ofParameters?, parameter?_record, Permutation.ofJson?_toJson]
  | reshape target =>
    have hread : target.toJson.isReadable 123 = true :=
      Json.isReadable_nats (fun _ => target.dim_lt) (by decide)
    rw [toJson, ofJson?_record (by decide) hread]
    simp [ofParameters?, parameter?_record, Shape.ofJson?_toJson]
  | addition => rfl

theorem canonical_toJson (op : Operation) : op.toJson.Canonical := by
  have hkind : ∀ kind, (Json.text kind).Canonical := fun kind => .string _
  cases op with
  | input id | output id =>
    exact Json.canonical_record (by simp [hkind, Json.canonical_int])
  | permute p | transpose p =>
    exact Json.canonical_record (by simp [hkind, p.canonical_toJson])
  | reshape target =>
    exact Json.canonical_record (by simp [hkind, target.canonical_toJson])
  | addition => exact Json.canonical_record (by simp [hkind])

end Operation

namespace LayerSource

theorem ofJson?_toJson (s : LayerSource) : ofJson? s.toJson = some s := by
  rw [ofJson?, toJson, Json.record?_record (by simp)]
  simp [lookup_cons_eq, slotOfJson?, Json.text, Json.asText?, Json.asNat?_nat, s.slot.toNat_lt_size,
    indexLimit]

theorem canonical_toJson (s : LayerSource) : s.toJson.Canonical :=
  Json.canonical_record (by simp [Json.text, Json.Canonical.string, Json.canonical_nat])

end LayerSource

theorem listOfJson?_map {α : Type} {write : α → Json} {read : Json → Option α} {l : List α}
    (h : ∀ x ∈ l, read (write x) = some x) :
    listOfJson? read (some (.array (l.map write))) = some l :=
  mapM_map_eq_some h

namespace Layer

structure ReadsBack (l : Layer) : Prop where
  operation : l.operation.Indexed
  outputs : ∀ d ∈ l.outputs, d.ReadsBack

theorem ofJson?_toJson {l : Layer} (hl : l.ReadsBack) : ofJson? l.toJson = some l := by
  have hinputs := listOfJson?_map fun s (_ : s ∈ l.inputs) => s.ofJson?_toJson
  have houtputs := listOfJson?_map fun d hd => Descriptor.ofJson?_toJson (hl.outputs d hd)
  rw [ofJson?, toJson, Json.record?_record (by simp)]
  simp [lookup_cons_eq, Json.text, Json.asText?, Operation.ofJson?_toJson hl.operation, hinputs,
    houtputs]

theorem canonical_toJson (l : Layer) : l.toJson.Canonical := by
  have hinputs := Json.canonical_map fun s (_ : s ∈ l.inputs) => s.canonical_toJson
  have houtputs := Json.canonical_map fun d (_ : d ∈ l.outputs) => d.canonical_toJson
  exact Json.canonical_record (by
    simp [Json.text, Json.Canonical.string, l.operation.canonical_toJson, hinputs, houtputs])

end Layer

namespace Definition

/-- A definition reads back from its text, whatever the names, slots and binding ids of its
layers, if its axes are indexes and its scales are written by numbers that read back. -/
theorem parse?_render {d : Definition} (hd : ∀ l ∈ d.layers, l.ReadsBack) :
    parse? d.render = some d := by
  have hlayers := mapM_map_eq_some fun l hl => Layer.ofJson?_toJson (hd l hl)
  have hcanonical : d.toJson.Canonical := by
    have hitems := Json.canonical_map fun l (_ : l ∈ d.layers) => l.canonical_toJson
    exact Json.canonical_record (by simp [hitems])
  rw [parse?, render, Json.parse?_pretty hcanonical, Option.bind_some, ofJson?, toJson,
    Json.record?_record (by simp)]
  simp [lookup_cons_eq, Json.asItems?, hlayers]

/-- The unsigned type with the scale that is nearest to a tenth. -/
def tenths : Descriptor :=
  ⟨Network.wide.shape, .qasymmU8, some ⟨0x3dcccccd#32, -5⟩, rfl, by decide, nofun⟩

theorem parse?_render_tenths :
    let d : Definition :=
      ⟨[⟨"in \"é\"\n\x01😀", .input (-7), [], [tenths]⟩,
        ⟨"back\\slash", .permute Network.swap, [⟨"in \"é\"\n\x01😀", 0⟩], [Network.tall]⟩,
        ⟨"", .output 2147483647, [⟨"back\\slash", 18446744073709551615⟩], []⟩]⟩
    (∀ l ∈ d.layers, l.ReadsBack) ∧ parse? d.render = some d := by
  intro d
  have htenths : tenths.ReadsBack := by
    rintro q hq
    obtain rfl := Option.some.inj hq
    exact (by decide +kernel : Quantization.scaleOfJson? (.single 0x3dcccccd) = some 0x3dcccccd#32)
  have hd : ∀ l ∈ d.layers, l.ReadsBack := by
    intro l hl
    simp only [d, List.mem_cons, List.not_mem_nil, or_false] at hl
    rcases hl with rfl | rfl | rfl
    · exact ⟨trivial, by simpa using htenths⟩
    · exact ⟨(by decide : ∀ axis ∈ Network.swap.axes, axis < indexLimit), by simp; nofun⟩
    · exact ⟨trivial, by simp⟩
  exact ⟨hd, parse?_render hd⟩

end Definition

end LayerGraph
