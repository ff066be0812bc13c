import LayerGraph.Proofs.Paths

/-!
# What the edits do

Each edit succeeds under a condition on the graph before it, and then its effect is one
total update; otherwise it leaves the graph as it was.
-/

set_option autoImplicit false

namespace LayerGraph

namespace Graph

variable {g : Graph}

theorem requireNode_eq_ok_iff {id : NodeId} {node : Node} :
    g.requireNode id = .ok node ↔ g.node? id = some node := by
  cases hn : g.node? id <;> simp [requireNode, hn]

theorem requireProducer_eq_ok_iff {s : InputSlot} {o : OutputSlot} :
    g.requireProducer s = .ok o ↔ g.source? s = some o := by
  constructor
  · intro h
    cases hp : g.producer s with
    | error e => simp [requireProducer, hp, bind, Except.bind] at h
    | ok p =>
      cases p with
      | none =>
        simp only [requireProducer, hp, bind, Except.bind] at h
        cases h
      | some q =>
        simp only [requireProducer, hp, bind, Except.bind] at h
        cases h
        exact (producer_eq_ok_iff.1 hp).2
  · intro h
    have hp := producer_eq_ok_iff.2 ⟨hasInput_of_source? h, h⟩
    simp [requireProducer, hp, bind, Except.bind, pure, Except.pure]

theorem consumers_eq_ok_iff {o : OutputSlot} {slots : List InputSlot} :
    g.consumers o = .ok slots ↔ g.HasOutput o ∧ g.readers o = slots := by
  cases ho : g.requireOutput o with
  | error e =>
    simp only [consumers, ho, bind, Except.bind]
    constructor
    · intro h
      cases h
    · rintro ⟨⟨node, hn, hlt⟩, -⟩
      rw [requireOutput_eq_ok_iff.2 ⟨hn, hlt⟩] at ho
      cases ho
  | ok node =>
    obtain ⟨hn, hlt⟩ := requireOutput_eq_ok_iff.1 ho
    have hr : g.readers o = node.consumers o.index := readers_of_node hn o.index
    simp [consumers, ho, bind, Except.bind, pure, Except.pure, hr,
      show g.HasOutput o from ⟨node, hn, hlt⟩]

theorem requireOutput_ok_of_hasOutput {o : OutputSlot} (h : g.HasOutput o) :
    ∃ node, g.requireOutput o = .ok node := by
  obtain ⟨node, hn, hlt⟩ := h
  exact ⟨node, requireOutput_eq_ok_iff.2 ⟨hn, hlt⟩⟩

end Graph

namespace Edit

open LayerGraph.Graph

variable {α β : Type} {g h : Graph}

theorem bind_ok {e : Edit α} {k : α → Edit β} {a : α} (he : e g = .ok a h) :
    (e >>= k) g = k a h := by
  simp [bind, EStateM.bind, he]

theorem bind_error {e : Edit α} {k : α → Edit β} {err : GraphError} (he : e g = .error err h) :
    (e >>= k) g = .error err h := by
  simp [bind, EStateM.bind, he]

theorem bind_eq_ok_iff {e : Edit α} {k : α → Edit β} {b : β} :
    (e >>= k) g = .ok b h ↔ ∃ a g', e g = .ok a g' ∧ k a g' = .ok b h := by
  cases he : e g with
  | ok a g' =>
    rw [bind_ok he]
    simp
  | error err g' =>
    rw [bind_error he]
    simp

theorem get_bind (k : Graph → Edit β) : ((get : Edit Graph) >>= k) g = k g g := rfl

theorem check_ok {f : Graph → Except GraphError α} {a : α} (hf : f g = .ok a) :
    check f g = .ok a g := by
  simp [check, hf]

theorem check_eq_ok_iff {f : Graph → Except GraphError α} {a : α} :
    check f g = .ok a h ↔ f g = .ok a ∧ g = h := by
  cases hf : f g <;> simp [check, hf]

theorem checkNode_ok {id : NodeId} {node : Node} (hn : g.node? id = some node) :
    check (fun g => g.requireNode id) g = .ok node g :=
  check_ok (requireNode_eq_ok_iff.2 hn)

theorem checkProducer_ok {s : InputSlot} {o : OutputSlot} (hs : g.source? s = some o) :
    check (fun g => g.requireProducer s) g = .ok o g :=
  check_ok (requireProducer_eq_ok_iff.2 hs)

theorem check_error {f : Graph → Except GraphError α} {err : GraphError} (hf : f g = .error err) :
    check f g = .error err g := by
  simp [check, hf]

theorem after_ok {e : Edit α} {a : α} (he : e g = .ok a h) : e.after g = h := by
  simp [after, he]

theorem after_error {e : Edit α} {err : GraphError} (he : e g = .error err h) :
    e.after g = h := by
  simp [after, he]

/-- A failing first check leaves the graph alone. -/
theorem after_check_error {f : Graph → Except GraphError α} {k : α → Edit β} {err : GraphError}
    (hf : f g = .error err) : (check f >>= k).after g = g :=
  after_error (bind_error (check_error hf))

theorem after_check_ok {f : Graph → Except GraphError α} {k : α → Edit β} {a : α}
    (hf : f g = .ok a) : (check f >>= k).after g = (k a).after g := by
  rw [after, bind_ok (check_ok hf), after]

theorem add_ok (operation : Operation) (name : String) :
    add operation name g = .ok g.nodes.size (g.push operation name) := rfl

theorem setDescriptor_ok {o : OutputSlot} (d : Descriptor) (ho : g.HasOutput o) :
    setDescriptor o d g = .ok () (g.setDescriptor o d) := by
  obtain ⟨node, hr⟩ := requireOutput_ok_of_hasOutput ho
  exact bind_ok (check_ok hr)

theorem after_setDescriptor (o : OutputSlot) (d : Descriptor) :
    (setDescriptor o d).after g = g ∨
      g.HasOutput o ∧ (setDescriptor o d).after g = g.setDescriptor o d := by
  cases hr : g.requireOutput o with
  | error err => exact .inl (after_check_error hr)
  | ok node =>
    have ho : g.HasOutput o := ⟨node, requireOutput_eq_ok_iff.1 hr⟩
    exact .inr ⟨ho, after_ok (setDescriptor_ok d ho)⟩

structure CanConnect (g : Graph) (o : OutputSlot) (s : InputSlot) : Prop where
  output : g.HasOutput o
  input : g.HasInput s
  free : g.source? s = none
  ahead : g.reaches s.node o.node = false

theorem connect_ok {o : OutputSlot} {s : InputSlot} (hc : CanConnect g o s) :
    connect o s g = .ok () (g.link o s) := by
  obtain ⟨node, hr⟩ := requireOutput_ok_of_hasOutput hc.output
  have hp := producer_eq_ok_iff.2 ⟨hc.input, hc.free⟩
  rw [connect, bind_ok (check_ok hr), bind_ok (check_ok hp)]
  simp only [get_bind, hc.ahead, Bool.false_eq_true, if_false]
  rfl

theorem connect_cycle {o : OutputSlot} {s : InputSlot} (ho : g.HasOutput o) (hs : g.HasInput s)
    (hfree : g.source? s = none) (hr : g.reaches s.node o.node = true) :
    connect o s g = .error (.wouldCreateCycle o s) g := by
  obtain ⟨node, hnode⟩ := requireOutput_ok_of_hasOutput ho
  rw [connect, bind_ok (check_ok hnode), bind_ok (check_ok (producer_eq_ok_iff.2 ⟨hs, hfree⟩))]
  simp only [get_bind, hr, if_true]
  rfl

theorem canConnect_of_connect {o : OutputSlot} {s : InputSlot} {u : Unit}
    (hok : connect o s g = .ok u h) : CanConnect g o s := by
  obtain ⟨node, g₁, hr, hok⟩ := bind_eq_ok_iff.1 hok
  obtain ⟨hnode, rfl⟩ := check_eq_ok_iff.1 hr
  obtain ⟨producer, g₂, hp, hok⟩ := bind_eq_ok_iff.1 hok
  obtain ⟨hproducer, rfl⟩ := check_eq_ok_iff.1 hp
  obtain ⟨hs, hfree⟩ := producer_eq_ok_iff.1 hproducer
  cases producer with
  | some q => cases hok
  | none =>
    refine ⟨⟨node, requireOutput_eq_ok_iff.1 hnode⟩, hs, hfree, ?_⟩
    rw [Bool.eq_false_iff]
    intro hcycle
    simp only [get_bind, hcycle, if_true] at hok
    cases hok

theorem after_connect (o : OutputSlot) (s : InputSlot) :
    (connect o s).after g = g ∨ CanConnect g o s ∧ (connect o s).after g = g.link o s := by
  cases hr : g.requireOutput o with
  | error err => exact .inl (after_check_error hr)
  | ok node =>
    cases hp : g.producer s with
    | error err => exact .inl (by rw [connect, after_check_ok hr, after_check_error hp])
    | ok producer =>
      cases producer with
      | some q => exact .inl (by rw [connect, after_check_ok hr, after_check_ok hp]; rfl)
      | none =>
        have ho : g.HasOutput o := ⟨node, requireOutput_eq_ok_iff.1 hr⟩
        obtain ⟨hs, hfree⟩ := producer_eq_ok_iff.1 hp
        cases hb : g.reaches s.node o.node with
        | true => exact .inl (after_error (connect_cycle ho hs hfree hb))
        | false =>
          have hc : CanConnect g o s := ⟨ho, hs, hfree, hb⟩
          exact .inr ⟨hc, after_ok (connect_ok hc)⟩

theorem disconnect_ok {o : OutputSlot} {s : InputSlot} (hs : g.source? s = some o) :
    disconnect s g = .ok o (g.unlink o s) :=
  bind_ok (checkProducer_ok hs)

theorem after_disconnect (s : InputSlot) :
    (disconnect s).after g = g ∨
      ∃ o, g.source? s = some o ∧ (disconnect s).after g = g.unlink o s := by
  cases hr : g.requireProducer s with
  | error err => exact .inl (after_check_error hr)
  | ok o =>
    have hs := requireProducer_eq_ok_iff.1 hr
    exact .inr ⟨o, hs, after_ok (disconnect_ok hs)⟩

theorem insert_ok {o : OutputSlot} {s : InputSlot} {operation : Operation} (name : String)
    (d : Descriptor) (hs : g.source? s = some o) (hin : operation.kind.numInputs = 1)
    (hout : operation.kind.numOutputs = 1) :
    insert s operation name d g =
      .ok g.nodes.size ((g.push operation name).splice g.nodes.size o s d) := by
  rw [insert, bind_ok (checkProducer_ok hs)]
  simp only [hin, hout, ne_eq, not_true_eq_false, or_self, if_false]
  exact bind_ok (add_ok operation name)

theorem after_insert (s : InputSlot) (operation : Operation) (name : String) (d : Descriptor) :
    (insert s operation name d).after g = g ∨
      ∃ o, g.source? s = some o ∧ operation.kind.numInputs = 1 ∧ operation.kind.numOutputs = 1 ∧
        (insert s operation name d).after g =
          (g.push operation name).splice g.nodes.size o s d := by
  cases hr : g.requireProducer s with
  | error err => exact .inl (after_check_error hr)
  | ok o =>
    have hs := requireProducer_eq_ok_iff.1 hr
    by_cases hk : operation.kind.numInputs ≠ 1 ∨ operation.kind.numOutputs ≠ 1
    · refine .inl ?_
      rw [insert, after_check_ok hr]
      simp only [if_pos hk]
      rfl
    · obtain ⟨hin, hout⟩ : operation.kind.numInputs = 1 ∧ operation.kind.numOutputs = 1 := by
        omega
      exact .inr ⟨o, hs, hin, hout, after_ok (insert_ok name d hs hin hout)⟩

structure CanMove (g : Graph) (o p : OutputSlot) : Prop where
  source : g.HasOutput o
  target : g.HasOutput p
  ne : o ≠ p
  ahead : ∀ s ∈ g.readers o, g.reaches s.node p.node = false

theorem moveAll_ok {o p : OutputSlot} (hc : CanMove g o p) :
    moveAll o p g = .ok () (g.moveConsumers o p (g.readers o)) := by
  obtain ⟨node, hr⟩ := requireOutput_ok_of_hasOutput hc.source
  obtain ⟨node', hr'⟩ := requireOutput_ok_of_hasOutput hc.target
  have hcons := consumers_eq_ok_iff.2 ⟨hc.source, rfl⟩
  have hfind : (g.readers o).find? (fun s => g.reaches s.node p.node) = none := by
    simpa using hc.ahead
  rw [moveAll, bind_ok (check_ok hr), bind_ok (check_ok hr'), if_pos hc.ne,
    bind_ok (check_ok hcons)]
  simp only [get_bind, hfind]
  rfl

theorem moveAll_self {o : OutputSlot} (ho : g.HasOutput o) : moveAll o o g = .ok () g := by
  obtain ⟨node, hnode⟩ := requireOutput_ok_of_hasOutput ho
  rw [moveAll, bind_ok (check_ok hnode), bind_ok (check_ok hnode), if_neg (by simp)]
  rfl

theorem moveAll_cycle {o p : OutputSlot} {s : InputSlot} (ho : g.HasOutput o)
    (hp : g.HasOutput p) (hop : o ≠ p)
    (hr : (g.readers o).find? (fun s => g.reaches s.node p.node) = some s) :
    moveAll o p g = .error (.wouldCreateCycle p s) g := by
  obtain ⟨node, hnode⟩ := requireOutput_ok_of_hasOutput ho
  obtain ⟨node', hnode'⟩ := requireOutput_ok_of_hasOutput hp
  rw [moveAll, bind_ok (check_ok hnode), bind_ok (check_ok hnode'), if_pos hop,
    bind_ok (check_ok (consumers_eq_ok_iff.2 ⟨ho, rfl⟩))]
  simp only [get_bind, hr]
  rfl

theorem after_moveAll (o p : OutputSlot) :
    (moveAll o p).after g = g ∨
      CanMove g o p ∧ (moveAll o p).after g = g.moveConsumers o p (g.readers o) := by
  cases hr : g.requireOutput o with
  | error err => exact .inl (after_check_error hr)
  | ok node =>
    have ho : g.HasOutput o := ⟨node, requireOutput_eq_ok_iff.1 hr⟩
    cases hr' : g.requireOutput p with
    | error err => exact .inl (by rw [moveAll, after_check_ok hr, after_check_error hr'])
    | ok node' =>
      have hp : g.HasOutput p := ⟨node', requireOutput_eq_ok_iff.1 hr'⟩
      by_cases hop : o = p
      · subst hop
        exact .inl (after_ok (moveAll_self ho))
      · cases hfind : (g.readers o).find? (fun s => g.reaches s.node p.node) with
        | some s => exact .inl (after_error (moveAll_cycle ho hp hop hfind))
        | none =>
          have hc : CanMove g o p := ⟨ho, hp, hop, by simpa using hfind⟩
          exact .inr ⟨hc, after_ok (moveAll_ok hc)⟩

theorem addRelated_ok {a b : NodeId} {node node' : Node} (ha : g.node? a = some node)
    (hb : g.node? b = some node') :
    addRelated a b g = .ok () (g.setRelated a
      (g.relatedNodes a ++ ⟨b, node'.name⟩ :: g.relatedNodes b)) := by
  rw [addRelated, bind_ok (checkNode_ok ha),
    bind_ok (checkNode_ok hb)]
  rfl

theorem after_addRelated (a b : NodeId) :
    (addRelated a b).after g = g ∨
      g.contains a = true ∧ ∃ labels, (addRelated a b).after g = g.setRelated a labels := by
  cases ha : g.requireNode a with
  | error err => exact .inl (after_check_error ha)
  | ok node =>
    cases hb : g.requireNode b with
    | error err => exact .inl (by rw [addRelated, after_check_ok ha, after_check_error hb])
    | ok node' =>
      have ha := requireNode_eq_ok_iff.1 ha
      exact .inr ⟨contains_iff.2 ⟨node, ha⟩, _,
        after_ok (addRelated_ok ha (requireNode_eq_ok_iff.1 hb))⟩

end Edit

end LayerGraph
