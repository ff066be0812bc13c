import LayerGraph.Graph.Stepwise
import LayerGraph.Proofs.Representation

/-!
# Changes are atomic

A write can find its slot missing only in a graph whose edges do not agree at both ends.
So in every graph that changes can make, the writes of a change all succeed once its checks
have passed, and a change that fails has written nothing.
-/

set_option autoImplicit false

namespace LayerGraph

namespace Edit

open LayerGraph.Graph

variable {g : Graph}

theorem putInput_ok {s : InputSlot} (hs : g.HasInput s) (p : Option OutputSlot) :
    putInput s p g = .ok () (g.setInput s p) :=
  bind_ok (check_ok (producer_eq_ok_iff.2 ⟨hs, rfl⟩))

theorem putConsumers_ok {o : OutputSlot} (ho : g.HasOutput o)
    (f : List InputSlot → List InputSlot) :
    putConsumers o f g = .ok () (g.updateConsumers o f) := by
  obtain ⟨node, hnode⟩ := requireOutput_ok_of_hasOutput ho
  exact bind_ok (check_ok hnode)

theorem cut_ok {o : OutputSlot} {s : InputSlot} (ho : g.HasOutput o) (hs : g.HasInput s) :
    cut o s g = .ok () (g.unlink o s) := by
  rw [cut, bind_ok (putInput_ok hs none)]
  exact putConsumers_ok (hasOutput_setInput.2 ho) _

theorem route_ok {id : NodeId} {o : OutputSlot} {s : InputSlot} (d : Descriptor)
    (hin : g.HasInput ⟨id, 0⟩) (hout : g.HasOutput ⟨id, 0⟩) (ho : g.HasOutput o)
    (hs : g.HasInput s) : route id o s d g = .ok () (g.splice id o s d) := by
  rw [route, splice_eq, bind_ok (putInput_ok hin _), bind_ok (setDescriptor_ok d (by simpa)),
    bind_ok (putConsumers_ok (by simpa [hasOutput_setDescriptor]) _),
    bind_ok (putConsumers_ok (by simpa [hasOutput_setDescriptor]) _)]
  exact putInput_ok (by simpa [hasInput_setDescriptor]) _

/-- What feeds a slot still lists it, so releasing the slot finds both ends. -/
theorem release_ok {s : InputSlot} (hl : g.Linked) (hs : g.HasInput s) :
    release s g = .ok () (g.detach s) := by
  rw [release, bind_ok (check_ok (producer_eq_ok_iff.2 ⟨hs, rfl⟩)), detach_eq]
  cases hp : g.source? s with
  | none => rfl
  | some o =>
    exact (bind_ok (checkProducer_ok hp)).trans (cut_ok (hl.hasOutput_of_source? hp) hs)

/-- A loop of edits does what its steps do, when each succeeds wherever `Inv` holds and
keeps `Inv`. -/
theorem forM_ok {ι : Type} {step : ι → Edit Unit} {next : Graph → ι → Graph} (Inv : Graph → Prop)
    {indices : List ι}
    (hstep : ∀ i ∈ indices, ∀ h, Inv h → step i h = .ok () (next h i) ∧ Inv (next h i))
    (hg : Inv g) : indices.forM step g = .ok () (indices.foldl next g) := by
  induction indices generalizing g with
  | nil => rfl
  | cons i indices ih =>
    obtain ⟨hok, hnext⟩ := hstep i List.mem_cons_self g hg
    have hrest := ih (fun j hj => hstep j (List.mem_cons_of_mem _ hj)) hnext
    exact (bind_ok hok).trans hrest

theorem putInputs_ok {slots : List InputSlot} (hs : ∀ s ∈ slots, g.HasInput s) (o : OutputSlot) :
    (slots.forM fun s => putInput s (some o)) g =
      .ok () (slots.foldl (fun g s => g.setInput s (some o)) g) := by
  refine forM_ok (fun h => ∀ s ∈ slots, h.HasInput s) (fun s hm h hh => ?_) hs
  refine ⟨putInput_ok (hh s hm) _, fun t ht => ?_⟩
  exact hasInput_setInput.2 (hh t ht)

theorem releaseAll_ok {id : NodeId} {count : Nat} (hl : g.Linked)
    (hs : ∀ i < count, g.HasInput ⟨id, i⟩) :
    ((List.range count).forM fun i => release ⟨id, i⟩) g = .ok () (g.detachAll id count) := by
  -- releasing one slot keeps the ends of the edges in agreement, which the next one relies on
  refine forM_ok (fun h => h.Linked ∧ ∀ i < count, h.HasInput ⟨id, i⟩)
    (fun i hi h hh => ?_) ⟨hl, hs⟩
  refine ⟨release_ok hh.1 (hh.2 i (List.mem_range.1 hi)), hh.1.detach _, fun j hj => ?_⟩
  exact (hasInput_congr (SameNodes.detach h _).frame? _).2 (hh.2 j hj)

/-- An edit of `g` that reads first and writes afterwards: it has failed at reading and has
left the graph as it was, or none of its writes fails. -/
structure Atomic {φ α : Type} (g : Graph) (read : Except GraphError φ) (writes : φ → Edit α)
    (result : EStateM.Result GraphError Graph α) : Prop where
  refused : ∀ err, read = .error err → result = .error err g
  done : ∀ found, read = .ok found →
    ∃ value h, writes found g = .ok value h ∧ result = .ok value h

namespace Atomic

variable {φ α β : Type} {read : Except GraphError φ} {writes : φ → Edit α}
  {result : EStateM.Result GraphError Graph α}

theorem throw (err : GraphError) : Atomic g (throw err) writes (.error err g) where
  refused err' h := by
    cases h
    rfl
  done found h := by cases h

theorem pure {found : φ} {value : α} {h : Graph} (hwrites : writes found g = .ok value h)
    (hresult : result = .ok value h) : Atomic g (pure found) writes result where
  refused err herr := by cases herr
  done found' hfound := by
    cases hfound
    exact ⟨value, h, hwrites, hresult⟩

/-- Another check in front of the others. -/
theorem bind (f : Graph → Except GraphError β) {k : β → Except GraphError φ} {e : β → Edit α}
    (h : ∀ b, f g = .ok b → Atomic g (k b) writes (e b g)) :
    Atomic g (f g >>= k) writes ((check f >>= e) g) := by
  cases hf : f g with
  | error err =>
    rw [bind_error (check_error hf)]
    exact .throw err
  | ok b =>
    rw [bind_ok (check_ok hf)]
    exact h b hf

/-- A last check, for a value that the writes need. -/
theorem last (f : Graph → Except GraphError φ) {e : φ → Edit α}
    (h : ∀ found, f g = .ok found → Atomic g (.ok found) writes (e found g)) :
    Atomic g (f g) writes ((check f >>= e) g) := by
  have hbind := bind f h
  rwa [show f g >>= Except.ok = f g from bind_pure (f g)] at hbind

theorem stepwise_eq {f : Graph → Except GraphError φ} (h : Atomic g (f g) writes result) :
    (check f >>= writes) g = result := by
  cases hf : f g with
  | error err => rw [bind_error (check_error hf), h.refused err hf]
  | ok found =>
    obtain ⟨value, next, hwrites, hresult⟩ := h.done found hf
    rw [bind_ok (check_ok hf), hwrites, hresult]

theorem eq_of_error (h : Atomic g read writes result) {err : GraphError} {next : Graph}
    (herr : result = .error err next) : next = g := by
  cases read with
  | error err' =>
    cases (h.refused err' rfl).symm.trans herr
    rfl
  | ok found =>
    obtain ⟨value, next', -, hresult⟩ := h.done found rfl
    cases hresult.symm.trans herr

end Atomic

end Edit

namespace GraphChange

open LayerGraph.Graph Edit

variable {g : Graph}

theorem atomic_setDescriptor (o : OutputSlot) (d : Descriptor) :
    Atomic g (checks (.setDescriptor o d) g) (writes (.setDescriptor o d))
      (Edit.setDescriptor o d g) := by
  refine .bind (·.requireOutput o) fun node hnode => ?_
  have ho : g.HasOutput o := ⟨node, requireOutput_eq_ok_iff.1 hnode⟩
  exact .pure (setDescriptor_ok d ho) rfl

theorem atomic_connect (o : OutputSlot) (s : InputSlot) :
    Atomic g (checks (.connect o s) g) (writes (.connect o s)) (Edit.connect o s g) := by
  refine .bind (·.requireOutput o) fun node hnode => .bind (·.producer s) fun producer hp => ?_
  cases producer with
  | some q => exact .throw _
  | none =>
    cases hr : g.reaches s.node o.node with
    | true =>
      simp only [get_bind, hr, if_true]
      exact .throw _
    | false =>
      have ho : g.HasOutput o := ⟨node, requireOutput_eq_ok_iff.1 hnode⟩
      have hinput := putInput_ok (producer_eq_ok_iff.1 hp).1 (some o)
      simp only [get_bind, hr, Bool.false_eq_true, if_false]
      exact .pure ((bind_ok hinput).trans (putConsumers_ok (hasOutput_setInput.2 ho) _)) rfl

theorem atomic_disconnect (hl : g.Linked) (s : InputSlot) :
    Atomic g (checks (.disconnect s) g) (writes (.disconnect s)) (Edit.disconnect s g) := by
  refine .last (·.requireProducer s) fun o hp => ?_
  have hs := requireProducer_eq_ok_iff.1 hp
  exact .pure (bind_ok (cut_ok (hl.hasOutput_of_source? hs) (hasInput_of_source? hs))) rfl

theorem atomic_insert (hl : g.Linked) (s : InputSlot) (operation : Operation) (name : String)
    (d : Descriptor) :
    Atomic g (checks (.insert s operation name d) g) (writes (.insert s operation name d))
      (Edit.insert s operation name d g) := by
  refine .bind (·.requireProducer s) fun o hp => ?_
  by_cases hk : operation.kind.numInputs ≠ 1 ∨ operation.kind.numOutputs ≠ 1
  · simp only [if_pos hk]
    exact .throw _
  · obtain ⟨hin, hout⟩ : operation.kind.numInputs = 1 ∧ operation.kind.numOutputs = 1 := by omega
    have hs := requireProducer_eq_ok_iff.1 hp
    have hroute := route_ok d (hasInput_fresh name hin) (hasOutput_fresh name hout)
      ((hl.hasOutput_of_source? hs).push name operation)
      ((hasInput_of_source? hs).push name operation)
    simp only [if_neg hk]
    exact .pure ((bind_ok (add_ok operation name)).trans (bind_ok hroute)) rfl

theorem atomic_moveAll (hl : g.Linked) (o p : OutputSlot) :
    Atomic g (checks (.moveAll o p) g) (writes (.moveAll o p)) (Edit.moveAll o p g) := by
  refine .bind (·.requireOutput o) fun node hnode =>
    .bind (·.requireOutput p) fun node' hnode' => ?_
  by_cases hop : o = p
  · have hsame : ¬ o ≠ p := fun h => h hop
    simp only [if_pos hop, if_neg hsame]
    exact .pure (by rw [writes, if_neg hsame]; rfl) rfl
  · simp only [if_neg hop, if_pos (show o ≠ p from hop)]
    refine .bind (·.consumers o) fun moved hmoved => ?_
    obtain ⟨ho, rfl⟩ := consumers_eq_ok_iff.1 hmoved
    cases hfind : (g.readers o).find? (fun s => g.reaches s.node p.node) with
    | some s =>
      simp only [get_bind, hfind]
      exact .throw _
    | none =>
      have hp : g.HasOutput p := ⟨node', requireOutput_eq_ok_iff.1 hnode'⟩
      have hs : ∀ s ∈ g.readers o, (g.updateConsumers o fun _ => []).HasInput s := fun s hm =>
        hasInput_updateConsumers.2 (hl.hasInput_of_mem_readers hm)
      -- rewiring the consumers keeps the frames, so the target is still there to take them
      have hrewired :=
        (SameNodes.setInputs (g.updateConsumers o fun _ => []) p (g.readers o)).frame?
      have hp' := (hasOutput_congr hrewired p).2 (hasOutput_updateConsumers.2 hp)
      simp only [get_bind, hfind]
      refine .pure ?_ rfl
      rw [writes, if_pos hop, bind_ok (putConsumers_ok ho _), bind_ok (putInputs_ok hs p)]
      exact putConsumers_ok hp' _

theorem atomic_remove (hl : g.Linked) (id : NodeId) :
    Atomic g (checks (.remove id) g) (writes (.remove id)) (Edit.remove id g) := by
  refine .bind (·.requireNode id) fun node hnode => ?_
  have hn := requireNode_eq_ok_iff.1 hnode
  cases hc : node.hasConsumers with
  | true => exact .throw _
  | false =>
    have hs : ∀ i < node.inputs.length, g.HasInput ⟨id, i⟩ := fun i hi => ⟨node, hn, hi⟩
    have hrelease := releaseAll_ok hl hs
    obtain ⟨removed, hr⟩ := exists_detached hn node.inputs.length
    exact .pure ((bind_ok hrelease).trans (bind_ok (checkNode_ok hr))) (bind_ok (checkNode_ok hr))

theorem atomic_addRelated (a b : NodeId) :
    Atomic g (checks (.addRelated a b) g) (writes (.addRelated a b)) (Edit.addRelated a b g) :=
  .bind (·.requireNode a) fun _ _ => .last (·.requireNode b) fun _ _ => .pure rfl rfl

theorem atomic (hl : g.Linked) (c : GraphChange) : Atomic g (c.checks g) c.writes (c.edit g) := by
  cases c with
  | add operation name => exact .pure rfl rfl
  | setDescriptor slot descriptor => exact atomic_setDescriptor slot descriptor
  | connect source target => exact atomic_connect source target
  | disconnect slot => exact atomic_disconnect hl slot
  | insert position operation name descriptor =>
    exact atomic_insert hl position operation name descriptor
  | moveAll source target => exact atomic_moveAll hl source target
  | remove id => exact atomic_remove hl id
  | addRelated replacement superseded => exact atomic_addRelated replacement superseded

/-- A change that fails leaves the graph as it was: made write by write it comes to the
same, and no write fails once the checks have passed. -/
theorem change_atomic (hg : g.Reachable) (c : GraphChange) :
    (∀ err h, c.edit g = .error err h → h = g) ∧ c.stepwise g = c.edit g ∧
      ∀ found, c.checks g = .ok found → ∃ value h, c.writes found g = .ok value h := by
  have hc := atomic hg.sound.linked c
  refine ⟨fun err h herr => hc.eq_of_error herr, hc.stepwise_eq, fun found hfound => ?_⟩
  obtain ⟨value, h, hwrites, -⟩ := hc.done found hfound
  exact ⟨value, h, hwrites⟩

theorem change_atomic_doubling :
    doubling.Reachable ∧
      edit (.remove 1) doubling = .error (.nodeHasConsumers ⟨1, "twice"⟩) doubling ∧
      checks (.moveAll ⟨1, 0⟩ ⟨0, 0⟩) doubling = .ok [⟨2, 0⟩] ∧
      (∃ h, writes (.moveAll ⟨1, 0⟩ ⟨0, 0⟩) [⟨2, 0⟩] doubling = .ok () h) ∧
      stepwise (.remove 2) doubling = edit (.remove 2) doubling := by
  have hg : doubling.Reachable := .changed .empty _
  obtain ⟨h, hrefused⟩ : ∃ h,
      edit (.remove 1) doubling = .error (.nodeHasConsumers ⟨1, "twice"⟩) h := ⟨_, rfl⟩
  have hsame : h = doubling := (change_atomic hg (.remove 1)).1 _ h hrefused
  have hmoved : checks (.moveAll ⟨1, 0⟩ ⟨0, 0⟩) doubling = .ok [⟨2, 0⟩] := rfl
  obtain ⟨_, hwrites⟩ := (change_atomic hg (.moveAll ⟨1, 0⟩ ⟨0, 0⟩)).2.2 _ hmoved
  exact ⟨hg, hsame ▸ hrefused, hmoved, hwrites, (change_atomic hg (.remove 2)).2.1⟩

end GraphChange

end LayerGraph
