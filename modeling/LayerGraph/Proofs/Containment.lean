import LayerGraph.Proofs.Refusal
import LayerGraph.Proofs.SingleAssignment

/-!
# Runs that fail midway

A workload takes its output buffers out of the network and puts them back, whether it
runs, fails or cannot resolve its slots. So a call that fails changes nothing but what
the workloads up to the failing one declare as outputs, and after any calls every buffer
has the extent of its descriptor.
-/

set_option autoImplicit false

namespace LayerGraph

def SlotRef.buffer? : SlotRef → Option Nat
  | .intermediate k => some k
  | _ => none

theorem SlotRef.mem_buffers {slots : List SlotRef} {k : Nat} :
    k ∈ slots.filterMap SlotRef.buffer? ↔ SlotRef.intermediate k ∈ slots := by
  rw [List.mem_filterMap]
  constructor
  · rintro ⟨slot, hslot, hk⟩
    cases slot with
    | intermediate i =>
      obtain rfl := Option.some.inj hk
      exact hslot
    | boundInput i => cases hk
    | boundOutput i => cases hk
  · intro hslot
    exact ⟨_, hslot, rfl⟩

namespace WorkloadSpec

def writtenBuffers (s : WorkloadSpec) : List Nat := s.writtenSlots.filterMap SlotRef.buffer?

/-- The buffers that a workload writes are distinct, and there are that many. -/
def WritesApart (s : WorkloadSpec) (count : Nat) : Prop :=
  s.writtenBuffers.Nodup ∧ ∀ k ∈ s.writtenBuffers, k < count

instance (s : WorkloadSpec) (count : Nat) : Decidable (s.WritesApart count) :=
  inferInstanceAs (Decidable (_ ∧ _))

end WorkloadSpec

namespace RunState

variable {st rest mid next : RunState} {taken : Taken} {slots : List SlotRef} {bound : List Memory}
  {w : Workload} {results : List (Destination × Memory)}

section Putting

/-- Whatever is put, the buffers come to what is wanted of them, when all that is put is as
wanted and so are the buffers that nothing is put into. -/
theorem buffers_putAll {α : Type} (f : Memory → α) {wanted : List α}
    (hlen : st.buffers.length = wanted.length)
    (hput : ∀ k m, (Destination.buffer k, m) ∈ results → wanted[k]? = some (f m))
    (hleft : ∀ k : Nat, (∀ m, (Destination.buffer k, m) ∉ results) →
      (st.buffers[k]?).map f = wanted[k]?) :
    (st.putAll results).buffers.map f = wanted := by
  induction results generalizing st with
  | nil =>
    apply List.ext_getElem?
    intro k
    rw [List.getElem?_map]
    exact hleft k fun m hm => by cases hm
  | cons result results ih =>
    obtain ⟨destination, memory⟩ := result
    have hput' : ∀ k m, (Destination.buffer k, m) ∈ results → wanted[k]? = some (f m) :=
      fun k m hm => hput k m (List.mem_cons_of_mem _ hm)
    cases destination with
    | caller p =>
      refine @ih (st.put (.caller p) memory) hlen hput' fun k hk => hleft k fun m hm => ?_
      rcases List.mem_cons.1 hm with heq | hm
      · cases heq
      · exact hk m hm
    | buffer i =>
      have hi := hput i memory List.mem_cons_self
      have hlt : i < st.buffers.length := by
        rw [hlen]
        exact (List.getElem?_eq_some_iff.1 hi).1
      refine @ih (st.put (.buffer i) memory) (by simpa [put] using hlen) hput' fun k hk => ?_
      by_cases hik : i = k
      · subst hik
        simp [put, hlt, hi]
      · rw [put, List.getElem?_set_ne hik]
        refine hleft k fun m hm => ?_
        rcases List.mem_cons.1 hm with heq | hm
        · cases heq
          exact hik rfl
        · exact hk m hm

/-- What no single result changes, all of them together leave alone. -/
theorem putAll_keeps {β : Type} (view : RunState → β)
    (h : ∀ result ∈ results, ∀ st : RunState, view (st.put result.1 result.2) = view st) :
    view (st.putAll results) = view st := by
  induction results generalizing st with
  | nil => rfl
  | cons result results ih =>
    have hrest := @ih (st.put result.1 result.2) fun r hr => h r (List.mem_cons_of_mem _ hr)
    exact hrest.trans (h result List.mem_cons_self st)

theorem buffers_putAll_of_not_mem {k : Nat} (h : ∀ m, (Destination.buffer k, m) ∉ results) :
    (st.putAll results).buffers[k]? = st.buffers[k]? := by
  refine putAll_keeps (·.buffers[k]?) fun result hm st => ?_
  obtain ⟨destination, memory⟩ := result
  cases destination with
  | caller p => rfl
  | buffer i =>
    have hne : i ≠ k := by
      rintro rfl
      exact h memory hm
    rw [put, List.getElem?_set_ne hne]

theorem outputs_putAll_of_not_mem {p : Nat} (h : ∀ m, (Destination.caller p, m) ∉ results) :
    (st.putAll results).outputs[p]? = st.outputs[p]? := by
  refine putAll_keeps (·.outputs[p]?) fun result hm st => ?_
  obtain ⟨destination, memory⟩ := result
  cases destination with
  | buffer k => rfl
  | caller i =>
    have hne : i ≠ p := by
      rintro rfl
      exact h memory hm
    rw [put, List.getElem?_set_ne hne]

theorem places_putAll : (st.putAll results).places = st.places := by
  refine putAll_keeps (·.places) fun result _ st => ?_
  cases result.1 <;> rfl

end Putting

section Taking

/-- What is left of a state and what is taken from it, when the tensors of some output slots
are taken. -/
structure Took (st : RunState) (slots : List SlotRef) (rest : RunState) (taken : Taken) :
    Prop where
  outputs_eq : rest.outputs = st.outputs
  length_eq : rest.buffers.length = st.buffers.length
  left : ∀ k : Nat, SlotRef.intermediate k ∉ slots → rest.buffers[k]? = st.buffers[k]?
  numbers : taken.buffers.map (·.1) = slots.filterMap SlotRef.buffer?
  buffer : ∀ (k : Nat) m, (k, m) ∈ taken.buffers → st.buffers[k]? = some m
  caller : ∀ (p : Nat) m, (p, m) ∈ taken.outputs → st.outputs[p]? = some m ∧
    ∃ j : Nat, SlotRef.boundOutput j ∈ slots ∧ st.places[j]? = some (some p)
  places : ∀ j p : Nat, rest.places[j]? = some (some p) → st.places[j]? = some (some p)

theorem Took.nothing (st : RunState) : Took st [] st ⟨[], []⟩ where
  outputs_eq := rfl
  length_eq := rfl
  left _ _ := rfl
  numbers := rfl
  buffer _ _ hm := by cases hm
  caller _ _ hm := by cases hm
  places _ _ hp := hp

/-- A slot that is no buffer may find nothing to take. -/
theorem Took.pass (h : Took st slots rest taken) {slot : SlotRef} (hslot : slot.buffer? = none) :
    Took st (slots ++ [slot]) rest taken where
  outputs_eq := h.outputs_eq
  length_eq := h.length_eq
  left k hk := h.left k fun hm => hk (List.mem_append_left _ hm)
  numbers := by simp [h.numbers, hslot]
  buffer := h.buffer
  caller p m hm := by
    obtain ⟨hold, j, hj, hp⟩ := h.caller p m hm
    exact ⟨hold, j, List.mem_append_left _ hj, hp⟩
  places := h.places

theorem Took.takeBuffer (h : Took st slots rest taken) {k : Nat}
    (hnew : SlotRef.intermediate k ∉ slots) (hlt : k < st.buffers.length) :
    Took st (slots ++ [.intermediate k]) (take (rest, taken) (.intermediate k)).1
      (take (rest, taken) (.intermediate k)).2 := by
  have hold := List.getElem?_eq_getElem hlt
  have hrest : rest.buffers[k]? = some st.buffers[k] := (h.left k hnew).trans hold
  simp only [take, hrest]
  constructor
  case outputs_eq => exact h.outputs_eq
  case length_eq => simpa using h.length_eq
  case left =>
    intro i hi
    obtain ⟨hi, hik⟩ := not_or.1 fun hm => hi (List.mem_append.2 hm)
    have hne : k ≠ i := by
      rintro rfl
      exact hik (List.mem_singleton_self _)
    rw [List.getElem?_set_ne hne]
    exact h.left i hi
  case numbers => simp [h.numbers, SlotRef.buffer?]
  case buffer =>
    intro i m hm
    rcases List.mem_append.1 hm with hm | hm
    · exact h.buffer i m hm
    · cases List.mem_singleton.1 hm
      exact hold
  case caller =>
    intro p m hm
    obtain ⟨hold, j, hj, hp⟩ := h.caller p m hm
    exact ⟨hold, j, List.mem_append_left _ hj, hp⟩
  case places => exact h.places

theorem Took.takeCaller (h : Took st slots rest taken) (j : Nat) :
    Took st (slots ++ [.boundOutput j]) (take (rest, taken) (.boundOutput j)).1
      (take (rest, taken) (.boundOutput j)).2 := by
  cases hplace : (rest.places[j]?).join with
  | none => simpa only [take, hplace] using h.pass rfl
  | some p =>
    cases hold : rest.outputs[p]? with
    | none => simpa only [take, hplace, hold] using h.pass rfl
    | some m =>
      have hpass : Took st (slots ++ [.boundOutput j]) rest taken := h.pass rfl
      have hj := h.places j p (Option.join_eq_some_iff.1 hplace)
      simp only [take, hplace, hold]
      refine ⟨h.outputs_eq, h.length_eq, hpass.left, hpass.numbers, h.buffer, ?_, ?_⟩
      · intro q m' hm
        rcases List.mem_append.1 hm with hm | hm
        · exact hpass.caller q m' hm
        · cases List.mem_singleton.1 hm
          exact ⟨h.outputs_eq ▸ hold, j, by simp, hj⟩
      · intro i q hi
        by_cases hij : j = i
        · subst hij
          rw [List.getElem?_set_self' ] at hi
          cases hr : rest.places[j]? <;> simp [hr] at hi
        · rw [List.getElem?_set_ne hij] at hi
          exact h.places i q hi

/-- Distinct buffers that are there are all taken, each as it was. -/
theorem took_takeAll (hn : (slots.filterMap SlotRef.buffer?).Nodup)
    (hlt : ∀ k ∈ slots.filterMap SlotRef.buffer?, k < st.buffers.length) :
    Took st slots (st.takeAll slots).1 (st.takeAll slots).2 := by
  induction slots using List.reverseRecOn with
  | nil => exact .nothing st
  | append_singleton slots slot ih =>
    rw [List.filterMap_append] at hn hlt
    have ih := ih hn.of_append_left fun k hk => hlt k (List.mem_append_left _ hk)
    rw [takeAll, List.foldl_append, List.foldl_cons, List.foldl_nil]
    cases slot with
    | intermediate k =>
      refine ih.takeBuffer (fun hm => ?_) (hlt k (by simp [SlotRef.buffer?]))
      exact (List.nodup_append.1 hn).2.2 k (SlotRef.mem_buffers.2 hm) k
        (by simp [SlotRef.buffer?]) rfl
    | boundInput i => exact ih.pass rfl
    | boundOutput j => exact ih.takeCaller j

end Taking

section Handing

variable {buffers outputs : List (Nat × Memory)} {written : List (Destination × Memory)}

def handedBuffer? : Destination × Memory → Option (Nat × Memory)
  | (.buffer k, m) => some (k, m)
  | (.caller _, _) => none

def handedOutput? : Destination × Memory → Option (Nat × Memory)
  | (.buffer _, _) => none
  | (.caller p, m) => some (p, m)

theorem mem_handedBuffers {k : Nat} {m : Memory} :
    (k, m) ∈ written.filterMap handedBuffer? ↔ (Destination.buffer k, m) ∈ written := by
  rw [List.mem_filterMap]
  constructor
  · rintro ⟨⟨destination, memory⟩, hmem, hk⟩
    cases destination with
    | buffer i =>
      cases hk
      exact hmem
    | caller p => cases hk
  · intro hmem
    exact ⟨_, hmem, rfl⟩

theorem mem_handedOutputs {p : Nat} {m : Memory} :
    (p, m) ∈ written.filterMap handedOutput? ↔ (Destination.caller p, m) ∈ written := by
  rw [List.mem_filterMap]
  constructor
  · rintro ⟨⟨destination, memory⟩, hmem, hp⟩
    cases destination with
    | buffer i => cases hp
    | caller i =>
      cases hp
      exact hmem
  · intro hmem
    exact ⟨_, hmem, rfl⟩

/-- What was taken is handed out in order, a buffer for every slot that is one. -/
theorem handOut_eq_ok (h : handOut slots buffers outputs = .ok written) :
    written.filterMap handedBuffer? <+: buffers ∧ written.filterMap handedOutput? <+: outputs ∧
      (written.filterMap handedBuffer?).length = (slots.filterMap SlotRef.buffer?).length := by
  induction slots, buffers, outputs using handOut.induct generalizing written with
  | case1 =>
    cases h
    exact ⟨List.nil_prefix, List.nil_prefix, rfl⟩
  | case2 k slots index memory buffers outputs ih =>
    rw [handOut] at h
    obtain ⟨others, hothers, h⟩ := except_bind_eq_ok_iff.1 h
    cases h
    obtain ⟨hbuffers, houtputs, hlen⟩ := ih hothers
    exact ⟨by simpa [handedBuffer?] using hbuffers, houtputs,
      by simpa [handedBuffer?, SlotRef.buffer?] using hlen⟩
  | case3 j slots buffers place memory outputs ih =>
    rw [handOut] at h
    obtain ⟨others, hothers, h⟩ := except_bind_eq_ok_iff.1 h
    cases h
    obtain ⟨hbuffers, houtputs, hlen⟩ := ih hothers
    exact ⟨hbuffers, by simpa [handedOutput?] using houtputs, hlen⟩
  | case4 slot slots buffers outputs hbuffer hcaller =>
    rw [handOut] at h
    · cases h
    · exact hbuffer
    · exact hcaller

/-- Every buffer that was taken is handed out, and of the caller's tensors only taken ones. -/
theorem Took.handOut (h : Took st slots rest taken)
    (hout : handOut slots taken.buffers taken.outputs = .ok written) :
    (∀ k m, (Destination.buffer k, m) ∈ written ↔ (k, m) ∈ taken.buffers) ∧
      ∀ p m, (Destination.caller p, m) ∈ written → (p, m) ∈ taken.outputs := by
  obtain ⟨hbuffers, houtputs, hlen⟩ := handOut_eq_ok hout
  have hall : written.filterMap handedBuffer? = taken.buffers := by
    refine hbuffers.eq_of_length ?_
    rw [hlen, ← h.numbers, List.length_map]
  refine ⟨fun k m => ?_, fun p m hm => ?_⟩
  · rw [← hall, mem_handedBuffers]
  · exact houtputs.subset (mem_handedOutputs.2 hm)

end Handing

section Step

variable {written : List (Destination × Memory)} {memories : List Memory}

/-- Memories of the extents of those handed out go where those came from, one to each. -/
theorem mem_zip_of_extents (h : memories.map Memory.extent = written.map (·.2.extent)) :
    (∀ d m, (d, m) ∈ (written.map (·.1)).zip memories →
      ∃ old, (d, old) ∈ written ∧ m.extent = old.extent) ∧
      ∀ d old, (d, old) ∈ written → ∃ m, (d, m) ∈ (written.map (·.1)).zip memories := by
  induction written generalizing memories with
  | nil => simp
  | cons first written ih =>
    obtain ⟨memory, memories, rfl, hfirst, hrest⟩ := List.map_eq_cons_iff.1 h
    obtain ⟨hold, hnew⟩ := ih hrest
    rw [List.map_cons, List.zip_cons_cons]
    refine ⟨fun d m hm => ?_, fun d old hm => ?_⟩
    · rcases List.mem_cons.1 hm with heq | hm
      · cases heq
        exact ⟨first.2, List.mem_cons_self, hfirst⟩
      · obtain ⟨old, hmem, hextent⟩ := hold d m hm
        exact ⟨old, List.mem_cons_of_mem _ hmem, hextent⟩
    · rcases List.mem_cons.1 hm with rfl | hm
      · exact ⟨memory, List.mem_cons_self⟩
      · obtain ⟨m, hmem⟩ := hnew d old hm
        exact ⟨m, List.mem_cons_of_mem _ hmem⟩

/-- What one workload does: it puts everything back and reports a slot, or puts, for each
memory that was handed out to it, one of the same extent. -/
theorem step_cases (bound : List Memory) (htake : st.takeAll w.spec.writtenSlots = (rest, taken)) :
    (∃ slot, step bound w st = (rest.restore taken, .error (.invalidSlot w.name slot))) ∨
      ∃ written memories outcome,
        handOut w.spec.writtenSlots taken.buffers taken.outputs = .ok written ∧
        memories.map Memory.extent = written.map (·.2.extent) ∧
        step bound w st = (rest.putAll ((written.map (·.1)).zip memories), outcome) ∧
        ∀ name slot, outcome ≠ .error (.invalidSlot name slot) := by
  have htake : st.takeAll (w.spec.outputs.map (·.slot)) = (rest, taken) := htake
  cases hconnect : rest.connect taken bound w.spec with
  | error slot =>
    refine .inl ⟨slot, ?_⟩
    rw [step, htake]
    simp only [hconnect]
  | ok slots =>
    obtain ⟨read, written⟩ := slots
    obtain ⟨_, -, hconnect'⟩ := except_bind_eq_ok_iff.1 hconnect
    obtain ⟨_, hout, heq⟩ := except_bind_eq_ok_iff.1 hconnect'
    cases heq
    have hextents := w.extents_run read (written.map (·.2))
    rw [List.map_map] at hextents
    cases hrun : (w.run read (written.map (·.2))).outcome with
    | ok u =>
      refine .inr ⟨written, _, .ok (), hout, hextents, ?_, fun _ _ h => by cases h⟩
      rw [step, htake]
      simp only [hconnect, hrun]
    | error cause =>
      refine .inr ⟨written, _, .error (.workload w.name cause), hout, hextents, ?_,
        fun _ _ h => by cases h⟩
      rw [step, htake]
      simp only [hconnect, hrun]

/-- Between two states of a run, nothing but what some slots stand for differs, the buffers have
kept their extents, and no tensor of the caller has found a new place. -/
structure Within (slots : List SlotRef) (st next : RunState) : Prop where
  extents : next.buffers.map Memory.extent = st.buffers.map Memory.extent
  buffers : ∀ k : Nat, SlotRef.intermediate k ∉ slots → next.buffers[k]? = st.buffers[k]?
  outputs : ∀ p : Nat, (∀ j : Nat, SlotRef.boundOutput j ∈ slots → st.places[j]? ≠ some (some p)) →
    next.outputs[p]? = st.outputs[p]?
  places : ∀ j p : Nat, next.places[j]? = some (some p) → st.places[j]? = some (some p)

theorem Within.refl (slots : List SlotRef) (st : RunState) : Within slots st st :=
  ⟨rfl, fun _ _ => rfl, fun _ _ => rfl, fun _ _ h => h⟩

theorem Within.trans {later : List SlotRef} (h : Within slots st mid) (h' : Within later mid next) :
    Within (slots ++ later) st next where
  extents := h'.extents.trans h.extents
  buffers k hk := by
    obtain ⟨hslots, hlater⟩ := not_or.1 fun hm => hk (List.mem_append.2 hm)
    exact (h'.buffers k hlater).trans (h.buffers k hslots)
  outputs p hp := by
    have hlater := h'.outputs p fun j hj hplace =>
      hp j (List.mem_append_right _ hj) (h.places j p hplace)
    exact hlater.trans (h.outputs p fun j hj => hp j (List.mem_append_left _ hj))
  places j p hp := h.places j p (h'.places j p hp)

theorem Within.mono {more : List SlotRef} (h : Within slots st next) (hsub : slots ⊆ more) :
    Within more st next where
  extents := h.extents
  buffers k hk := h.buffers k fun hm => hk (hsub hm)
  outputs p hp := h.outputs p fun j hj => hp j (hsub hj)
  places := h.places

theorem Within.length_eq (h : Within slots st next) : next.buffers.length = st.buffers.length := by
  simpa using congrArg List.length h.extents

/-- Buffers that were taken are as they were, once they are put back. -/
theorem Took.restore (h : Took st slots rest taken) : Within [] st (rest.restore taken) := by
  have hmem : ∀ k m, (Destination.buffer k, m) ∈
      taken.buffers.map (fun entry => (Destination.buffer entry.1, entry.2)) ↔
        (k, m) ∈ taken.buffers := by
    simp
  have hcaller : ∀ p m, (Destination.caller p, m) ∉
      taken.buffers.map (fun entry => (Destination.buffer entry.1, entry.2)) := by
    simp
  have hsame : (rest.restore taken).buffers.map id = st.buffers := by
    refine buffers_putAll id h.length_eq (fun k m hm => h.buffer k m ((hmem k m).1 hm)) ?_
    intro k hk
    rw [Option.map_id_fun, id, h.left k fun hslot => ?_]
    have hnumber := SlotRef.mem_buffers.2 hslot
    rw [← h.numbers, List.mem_map] at hnumber
    obtain ⟨⟨_, m⟩, hm, rfl⟩ := hnumber
    exact hk m ((hmem _ m).2 hm)
  rw [List.map_id] at hsame
  refine ⟨by rw [hsame], fun k _ => by rw [hsame], fun p _ => ?_, fun j p hp => ?_⟩
  · rw [RunState.restore, outputs_putAll_of_not_mem (hcaller p), h.outputs_eq]
  · rw [RunState.restore, places_putAll] at hp
    exact h.places j p hp

/-- What is put over memories handed out stays within the slots they were taken for. -/
theorem Took.putAll (h : Took st slots rest taken)
    (hout : RunState.handOut slots taken.buffers taken.outputs = .ok written)
    (hextents : memories.map Memory.extent = written.map (·.2.extent)) :
    Within slots st (rest.putAll ((written.map (·.1)).zip memories)) := by
  obtain ⟨hbuffer, hcaller⟩ := h.handOut hout
  obtain ⟨hold, hnew⟩ := mem_zip_of_extents hextents
  have hmem : ∀ k, SlotRef.intermediate k ∈ slots ↔ ∃ m, (k, m) ∈ taken.buffers := by
    intro k
    rw [← SlotRef.mem_buffers, ← h.numbers]
    simp
  refine ⟨?_, fun k hk => ?_, fun p hp => ?_, fun j p hp => ?_⟩
  · refine buffers_putAll Memory.extent (by simpa using h.length_eq) (fun k m hm => ?_) ?_
    · obtain ⟨old, hwritten, hextent⟩ := hold _ m hm
      rw [List.getElem?_map, h.buffer k old ((hbuffer k old).1 hwritten), hextent]
      rfl
    · intro k hk
      rw [List.getElem?_map, h.left k fun hslot => ?_]
      obtain ⟨old, htaken⟩ := (hmem k).1 hslot
      obtain ⟨m, hm⟩ := hnew _ old ((hbuffer k old).2 htaken)
      exact hk m hm
  · rw [buffers_putAll_of_not_mem fun m hm => ?_, h.left k hk]
    obtain ⟨old, hwritten, -⟩ := hold _ m hm
    exact hk ((hmem k).2 ⟨old, (hbuffer k old).1 hwritten⟩)
  · rw [outputs_putAll_of_not_mem fun m hm => ?_, h.outputs_eq]
    obtain ⟨old, hwritten, -⟩ := hold _ m hm
    obtain ⟨-, j, hj, hplace⟩ := h.caller p old (hcaller p old hwritten)
    exact hp j hj hplace
  · rw [places_putAll] at hp
    exact h.places j p hp

theorem step_within (bound : List Memory) (hw : w.spec.WritesApart st.buffers.length) :
    Within w.spec.writtenSlots st (step bound w st).1 := by
  have htook : Took st w.spec.writtenSlots _ _ := took_takeAll hw.1 hw.2
  rcases step_cases bound (show st.takeAll w.spec.writtenSlots = (_, _) from rfl) with
    ⟨slot, hstep⟩ | ⟨written, memories, outcome, hout, hextents, hstep, -⟩
  · rw [hstep]
    exact htook.restore.mono (List.nil_subset _)
  · rw [hstep]
    exact htook.putAll hout hextents

/-- A workload that cannot resolve a slot changes nothing. -/
theorem step_within_of_invalidSlot (hw : w.spec.WritesApart st.buffers.length) {name : String}
    {slot : SlotRef} (h : step bound w st = (next, .error (.invalidSlot name slot))) :
    Within [] st next := by
  have htook : Took st w.spec.writtenSlots _ _ := took_takeAll hw.1 hw.2
  rcases step_cases bound (show st.takeAll w.spec.writtenSlots = (_, _) from rfl) with
    ⟨_, hstep⟩ | ⟨written, memories, outcome, -, -, hstep, hvalid⟩
  · rw [hstep] at h
    cases h
    exact htook.restore
  · rw [hstep] at h
    cases h
    exact absurd rfl (hvalid name slot)

end Step

section Run

variable {workloads : List Workload} {e : ExecutionError}

theorem steps_append_ok (others : List Workload) (h : steps bound workloads st = (mid, .ok ())) :
    steps bound (workloads ++ others) st = steps bound others mid := by
  induction workloads generalizing st with
  | nil =>
    cases h
    rfl
  | cons w workloads ih =>
    rw [List.cons_append, steps]
    rw [steps] at h
    split at h
    · exact ih h
    · cases h

theorem steps_append_error (others : List Workload)
    (h : steps bound workloads st = (mid, .error e)) :
    steps bound (workloads ++ others) st = (mid, .error e) := by
  induction workloads generalizing st with
  | nil => cases h
  | cons w workloads ih =>
    rw [List.cons_append, steps]
    rw [steps] at h
    split at h
    · exact ih h
    · exact h

theorem steps_within (hw : ∀ w ∈ workloads, w.spec.WritesApart st.buffers.length) :
    Within (workloads.flatMap (·.spec.writtenSlots)) st (steps bound workloads st).1 := by
  induction workloads generalizing st with
  | nil => exact .refl _ st
  | cons w workloads ih =>
    have hfirst := step_within bound (hw w List.mem_cons_self)
    rw [List.flatMap_cons, steps]
    split
    · rename_i next hstep
      rw [hstep] at hfirst
      refine hfirst.trans (ih fun v hv => ?_)
      rw [hfirst.length_eq]
      exact hw v (List.mem_cons_of_mem _ hv)
    · rename_i next error hstep
      rw [hstep] at hfirst
      exact hfirst.mono (List.subset_append_left _ _)

/-- A run that fails does so at one of its workloads, after those before it have run. -/
theorem exists_failing (h : steps bound workloads st = (next, .error e)) :
    ∃ k < workloads.length, ∃ mid, steps bound (workloads.take k) st = (mid, .ok ()) ∧
      steps bound (workloads.take (k + 1)) st = (next, .error e) := by
  induction workloads generalizing st with
  | nil => cases h
  | cons w workloads ih =>
    cases hstep : step bound w st with
    | mk mid outcome =>
      cases outcome with
      | error error =>
        have hfirst : steps bound [w] st = (mid, .error error) := by simp [steps, hstep]
        have hall := steps_append_error workloads hfirst
        rw [List.singleton_append, h] at hall
        rw [← hall] at hfirst
        exact ⟨0, by simp, st, rfl, hfirst⟩
      | ok u =>
        have hfirst : steps bound [w] st = (mid, .ok ()) := by simp [steps, hstep]
        rw [← List.singleton_append, steps_append_ok _ hfirst] at h
        obtain ⟨k, hk, last, hbefore, hfails⟩ := ih h
        refine ⟨k + 1, by simpa using hk, last, ?_, ?_⟩
        · rw [List.take_succ_cons, ← List.singleton_append, steps_append_ok _ hfirst]
          exact hbefore
        · rw [List.take_succ_cons, ← List.singleton_append, steps_append_ok _ hfirst]
          exact hfails

/-- What a run that fails at a workload has changed: only what the workloads up to that one
declare, and only what those before it declare when it could not resolve a slot. -/
theorem within_of_failing {k : Nat} (hw : ∀ w ∈ workloads, w.spec.WritesApart st.buffers.length)
    (hbefore : steps bound (workloads.take k) st = (mid, .ok ()))
    (hafter : steps bound (workloads.take (k + 1)) st = (next, .error e)) :
    Within ((workloads.take (k + 1)).flatMap (·.spec.writtenSlots)) st next ∧
      ∀ name slot, e = .invalidSlot name slot →
        Within ((workloads.take k).flatMap (·.spec.writtenSlots)) st next := by
  have hfirst (count : Nat) : Within ((workloads.take count).flatMap (·.spec.writtenSlots)) st
      (steps bound (workloads.take count) st).1 :=
    steps_within fun w hm => hw w (List.mem_of_mem_take hm)
  have hmid := hfirst k
  have hnext := hfirst (k + 1)
  rw [hbefore] at hmid
  rw [hafter] at hnext
  refine ⟨hnext, ?_⟩
  rintro name slot rfl
  have hk : k < workloads.length := by
    by_contra hle
    rw [List.take_of_length_le (by omega)] at hbefore hafter
    rw [hbefore] at hafter
    cases hafter
  rw [List.take_succ_eq_append_getElem hk, steps_append_ok _ hbefore] at hafter
  have hstep : step bound workloads[k] mid = (next, .error (.invalidSlot name slot)) := by
    rw [steps] at hafter
    split at hafter
    · cases hafter
    · rename_i hstep
      rw [hstep, hafter]
  have hapart := hw _ (List.getElem_mem hk)
  rw [← hmid.length_eq] at hapart
  simpa using hmid.trans (step_within_of_invalidSlot hapart hstep)

end Run

end RunState

namespace Network

variable {g : Graph} {backend : BackendId} {registry : Registry} {n m : Network}
  {inputs outputs : List NamedTensor} {places : List Nat × List Nat} {e : ExecutionError} {k : Nat}

def upTo (n : Network) (count : Nat) : Network := { n with workloads := n.workloads.take count }

/-- A call fails at the workload of number `k`, counted from zero: stopped before that one it
succeeds, and stopped after it it fails. -/
structure FailsAt (n : Network) (inputs outputs : List NamedTensor) (k : Nat)
    (e : ExecutionError) : Prop where
  lt_length : k < n.workloads.length
  before : ((n.upTo k).execute inputs outputs).outcome = .ok ()
  after : ((n.upTo (k + 1)).execute inputs outputs).outcome = .error e

/-- A call has changed no buffers but those that some workloads declare as outputs, no tensors
of the caller but those bound to outputs that they declare, and nothing else in the network. -/
structure Confined (n : Network) (outputs : List NamedTensor) (workloads : List Workload)
    (call : Execution) : Prop where
  network : { call.network with buffers := n.buffers } = n
  buffers : ∀ i : Nat, (∀ w ∈ workloads, SlotRef.intermediate i ∉ w.spec.writtenSlots) →
    call.network.buffers[i]? = n.buffers[i]?
  outputs : ∀ (p : Nat) s, outputs[p]? = some s →
    (∀ w ∈ workloads, ∀ (j : Nat) b, SlotRef.boundOutput j ∈ w.spec.writtenSlots →
      n.bindings.outputs[j]? = some b → b.name ≠ s.name) →
    call.outputs[p]? = some s.tensor.memory

def boundInputs (inputs : List NamedTensor) (places : List Nat × List Nat) : List Memory :=
  places.1.filterMap fun place => (inputs[place]?).map (·.tensor.memory)

def start (n : Network) (outputs : List NamedTensor) (places : List Nat × List Nat) : RunState :=
  ⟨n.buffers, outputs.map (·.tensor.memory), places.2.map some⟩

/-- A call with accepted bindings, as the run that it makes. -/
theorem execute_of_bindAll {final : RunState} {outcome : Except ExecutionError Unit}
    (hb : n.bindings.bindAll inputs outputs = .ok places)
    (hrun : RunState.steps (boundInputs inputs places) n.workloads (n.start outputs places) =
      (final, outcome)) :
    n.execute inputs outputs = ⟨{ n with buffers := final.buffers }, final.outputs, outcome⟩ := by
  rw [boundInputs, start] at hrun
  simp only [execute, hb, hrun]

theorem outcome_upTo (hb : n.bindings.bindAll inputs outputs = .ok places) (count : Nat) :
    ((n.upTo count).execute inputs outputs).outcome = (RunState.steps (boundInputs inputs places)
      (n.workloads.take count) (n.start outputs places)).2 := by
  have hb' : (n.upTo count).bindings.bindAll inputs outputs = .ok places := hb
  rw [execute_of_bindAll hb' rfl]
  rfl

theorem exists_places_of_ok (h : (n.execute inputs outputs).outcome = .ok ()) :
    ∃ places, n.bindings.bindAll inputs outputs = .ok places := by
  cases hb : n.bindings.bindAll inputs outputs with
  | ok places => exact ⟨places, rfl⟩
  | error e =>
    rw [execute_refused hb] at h
    cases h

theorem confined_of_within {workloads : List Workload} {final : RunState}
    {outcome : Except ExecutionError Unit} (hb : n.bindings.bindAll inputs outputs = .ok places)
    (h : RunState.Within (workloads.flatMap (·.spec.writtenSlots)) (n.start outputs places) final) :
    n.Confined outputs workloads ⟨{ n with buffers := final.buffers }, final.outputs, outcome⟩ := by
  refine ⟨rfl, fun i hi => ?_, fun p s hs hp => ?_⟩
  · refine h.buffers i fun hm => ?_
    obtain ⟨w, hw, hslot⟩ := List.mem_flatMap.1 hm
    exact hi w hw hslot
  · have hsame : final.outputs[p]? = (outputs.map (·.tensor.memory))[p]? := by
      refine h.outputs p fun j hj hplace => ?_
      -- the tensor at a place has the name of the binding that the place is for
      obtain ⟨w, hw, hslot⟩ := List.mem_flatMap.1 hj
      have hplace : places.2[j]? = some p := by simpa [start] using hplace
      obtain ⟨t, ht, hresolve⟩ := ((BindingTable.pairs_of_bindAll hb).2.place_iff j p).1 hplace
      obtain rfl := Option.some.inj (hs.symm.trans ht)
      obtain ⟨b, hb', hname, -⟩ := BindingTable.fits_of_resolve hresolve
      exact hp w hw j b hslot hb' hname
    rw [hsame, List.getElem?_map, hs, Option.map_some]

theorem FailsAt.confined (h : n.FailsAt inputs outputs k e)
    (hw : ∀ w ∈ n.workloads, w.spec.WritesApart n.buffers.length) :
    (n.execute inputs outputs).outcome = .error e ∧
      n.Confined outputs (n.workloads.take (k + 1)) (n.execute inputs outputs) ∧
      ∀ name slot, e = .invalidSlot name slot →
        n.Confined outputs (n.workloads.take k) (n.execute inputs outputs) := by
  obtain ⟨places, hb⟩ : ∃ places, n.bindings.bindAll inputs outputs = .ok places :=
    exists_places_of_ok (n := n.upTo k) h.before
  obtain ⟨mid, hbefore⟩ : ∃ mid, RunState.steps (boundInputs inputs places) (n.workloads.take k)
      (n.start outputs places) = (mid, .ok ()) :=
    ⟨_, Prod.ext rfl ((outcome_upTo hb k).symm.trans h.before)⟩
  obtain ⟨final, hafter⟩ : ∃ final, RunState.steps (boundInputs inputs places)
      (n.workloads.take (k + 1)) (n.start outputs places) = (final, .error e) :=
    ⟨_, Prod.ext rfl ((outcome_upTo hb (k + 1)).symm.trans h.after)⟩
  have hrun := RunState.steps_append_error (n.workloads.drop (k + 1)) hafter
  rw [List.take_append_drop] at hrun
  obtain ⟨hwithin, hinvalid⟩ := RunState.within_of_failing hw hbefore hafter
  rw [execute_of_bindAll hb hrun]
  exact ⟨rfl, confined_of_within hb hwithin, fun name slot he =>
    confined_of_within hb (hinvalid name slot he)⟩

/-- A call that fails in its run fails at one of the workloads. -/
theorem exists_failsAt (h : (n.execute inputs outputs).outcome = .error e)
    {places : List Nat × List Nat} (hb : n.bindings.bindAll inputs outputs = .ok places) :
    ∃ k, n.FailsAt inputs outputs k e := by
  rw [execute_of_bindAll hb rfl] at h
  obtain ⟨k, hk, mid, hbefore, hafter⟩ := RunState.exists_failing (Prod.ext rfl h)
  refine ⟨k, hk, ?_, ?_⟩
  · rw [outcome_upTo hb, hbefore]
  · rw [outcome_upTo hb, hafter]

/-- What calls keep: the workloads, and the extents of the buffers. -/
theorem extents_execute (hw : ∀ w ∈ n.workloads, w.spec.WritesApart n.buffers.length)
    (inputs outputs : List NamedTensor) :
    (n.execute inputs outputs).network.workloads = n.workloads ∧
      (n.execute inputs outputs).network.buffers.map Memory.extent =
        n.buffers.map Memory.extent := by
  cases hb : n.bindings.bindAll inputs outputs with
  | error e =>
    rw [execute_refused hb]
    exact ⟨rfl, rfl⟩
  | ok places =>
    rw [execute_of_bindAll hb rfl]
    exact ⟨rfl, (RunState.steps_within hw).extents⟩

theorem extents_of_leads (hw : ∀ w ∈ n.workloads, w.spec.WritesApart n.buffers.length)
    (hm : n.Leads m) : m.workloads = n.workloads ∧
      m.buffers.map Memory.extent = n.buffers.map Memory.extent := by
  induction hm with
  | refl => exact ⟨rfl, rfl⟩
  | tail _ hstep ih =>
    obtain ⟨inputs, outputs, rfl⟩ := hstep
    obtain ⟨hworkloads, hextents⟩ := ih
    have hlen := congrArg List.length hextents
    rw [List.length_map, List.length_map] at hlen
    have hnext := extents_execute (hlen ▸ hworkloads ▸ hw) inputs outputs
    exact ⟨hnext.1.trans hworkloads, hnext.2.trans hextents⟩

/-- Whatever calls were made and however they ended, every buffer has the extent of its
descriptor, and a call that fails at a workload has changed nothing but what the workloads up
to that one declare as outputs, or what those before it declare when it could not resolve a
slot. -/
theorem execute_confines_failure (hload : (load g backend registry).1 = .ok n)
    (hw : ∀ w ∈ n.workloads, w.spec.WritesApart n.buffers.length) (hm : n.Leads m) :
    (∃ plan, g.plan = .ok plan ∧
      m.buffers.map Memory.extent = plan.buffers.map (·.descriptor.extent)) ∧
    ∀ inputs outputs,
      let call := m.execute inputs outputs
      (∀ e, call.outcome = .error e → e.OfRun → ∃ k, m.FailsAt inputs outputs k e) ∧
      ∀ k e, m.FailsAt inputs outputs k e →
        call.outcome = .error e ∧ m.Confined outputs (m.workloads.take (k + 1)) call ∧
          ∀ name slot, e = .invalidSlot name slot →
            m.Confined outputs (m.workloads.take k) call := by
  obtain ⟨plan, hplan, -, hn⟩ := load_eq_ok_iff.1 hload
  obtain ⟨hworkloads, hextents⟩ := extents_of_leads hw hm
  have hlen : m.buffers.length = n.buffers.length := by
    simpa using congrArg List.length hextents
  have hw' : ∀ w ∈ m.workloads, w.spec.WritesApart m.buffers.length := by
    rwa [hworkloads, hlen]
  refine ⟨⟨plan, hplan, ?_⟩, fun inputs outputs => ⟨fun e he hrun => ?_, fun k e hfails => ?_⟩⟩
  · rw [hextents, hn]
    simp [zeroedBuffer, Descriptor.extent]
  · cases hb : m.bindings.bindAll inputs outputs with
    | ok places => exact exists_failsAt he hb
    | error e' =>
      -- an error of the binding phase is none of a run
      rw [execute_refused hb] at he
      cases he
      have hexplains := BindingTable.explains_of_bindAll
        (fun d => by rw [bindings_of_leads hm]; exact names_of_load hload d) hb
      rcases hrun with ⟨_, _, rfl⟩ | ⟨_, _, rfl⟩ <;> exact hexplains.elim
  · exact hfails.confined hw'

/-- Reference workloads, but for sums, which look for their operands where there is nothing. -/
def astray : Registry :=
  (referenceBackend .nearest).registry.register ⟨.addition, referenceId, .float32⟩
    (Probe.constructor .farInput .float32)

def astrayNetwork : Network :=
  (load turning referenceId astray).1.toOption.get (by decide +kernel)

theorem execute_confines_failure_astray :
    let x : NamedTensor := ⟨"x", ⟨wide, ⟨.f32, .replicate 6 0x3f800000⟩, by decide⟩⟩
    let stale (name : String) : NamedTensor := ⟨name, ⟨tall, ⟨.f32, .replicate 6 7⟩, by decide⟩⟩
    let outputs := [stale "z", stale "y"]
    let m := (astrayNetwork.execute [x] outputs).network
    let e := ExecutionError.invalidSlot "NoopFloat32" (.intermediate 99)
    (load turning referenceId astray).1 = .ok astrayNetwork ∧
      (∀ w ∈ astrayNetwork.workloads, w.spec.WritesApart astrayNetwork.buffers.length) ∧
      astrayNetwork.Leads m ∧ m.buffers.map Memory.extent = [⟨.f32, 6⟩, ⟨.f32, 6⟩, ⟨.f32, 6⟩] ∧
      m.FailsAt [x] outputs 2 e ∧ (m.execute [x] outputs).outcome = .error e ∧
      m.Confined outputs (m.workloads.take 2) (m.execute [x] outputs) := by
  intro x stale outputs m e
  have hload := eq_ok_get (show (load turning referenceId astray).1.toOption.isSome = true by
    decide +kernel)
  have hw : ∀ w ∈ astrayNetwork.workloads,
      w.spec.WritesApart astrayNetwork.buffers.length := by decide +kernel
  have hm : astrayNetwork.Leads m := .single ⟨_, _, rfl⟩
  obtain ⟨⟨plan, hplan, hextents⟩, hcalls⟩ := execute_confines_failure hload hw hm
  have hstops : 2 < m.workloads.length ∧ ((m.upTo 2).execute [x] outputs).outcome = .ok () ∧
      ((m.upTo 3).execute [x] outputs).outcome = .error e := by decide +kernel
  have hfails : m.FailsAt [x] outputs 2 e := ⟨hstops.1, hstops.2.1, hstops.2.2⟩
  obtain ⟨houtcome, -, hconfined⟩ := (hcalls [x] outputs).2 2 e hfails
  have hplanned : some (plan.buffers.map (·.descriptor.extent)) =
      some [⟨.f32, 6⟩, ⟨.f32, 6⟩, ⟨.f32, 6⟩] := by
    have hmap := congrArg (fun p => p.toOption.map fun p => p.buffers.map (·.descriptor.extent))
      hplan
    exact hmap.symm.trans (by decide +kernel)
  exact ⟨hload, hw, hm, hextents.trans (Option.some.inj hplanned), hfails, houtcome,
    hconfined _ _ rfl⟩

end Network

end LayerGraph
