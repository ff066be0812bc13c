import LayerGraph.Proofs.Representation

/-!
# The cycle check is exact

Two edits look for a path before they rewire: connecting an output to a free slot, and
moving the consumers of one output onto another. The graph that each asks for is written
down here slot by slot, whether it has a cycle or not; the edit succeeds exactly when it
has none, and then that graph is the result.
-/

set_option autoImplicit false

namespace LayerGraph

open Relation

def Node.rewire (n : Node) (id : NodeId)
    (producer : InputSlot → Option OutputSlot → Option OutputSlot)
    (consumers : OutputSlot → List InputSlot → List InputSlot) : Node :=
  { n with
    inputs := n.inputs.mapIdx fun i source => producer ⟨id, i⟩ source
    outputs := n.outputs.mapIdx fun i out =>
      { out with consumers := consumers ⟨id, i⟩ out.consumers } }

/-- A node is its frame and its wiring. -/
theorem Node.eq_of_views {m n : Node} (hf : m.frame = n.frame)
    (hin : ∀ i, m.input? i = n.input? i) (hout : ∀ i, m.consumers i = n.consumers i) : m = n := by
  obtain ⟨id, name, operation, inputs, outputs, seq⟩ := m
  obtain ⟨id', name', operation', inputs', outputs', seq'⟩ := n
  simp only [Node.frame, NodeFrame.mk.injEq] at hf
  obtain ⟨rfl, rfl, rfl, rfl, hlen, hdesc⟩ := hf
  have hinputs : inputs = inputs' := by
    refine List.ext_getElem hlen fun i hi hi' => ?_
    simpa [Node.input?, hi, hi'] using hin i
  have hlen' : outputs.length = outputs'.length := by simpa using congrArg List.length hdesc
  have houtputs : outputs = outputs' := by
    refine List.ext_getElem hlen' fun i hi hi' => ?_
    have hd : outputs[i].descriptor = outputs'[i].descriptor := by
      simpa [hi, hi'] using congrArg (fun l => l[i]?) hdesc
    have hc : outputs[i].consumers = outputs'[i].consumers := by
      simpa [Node.consumers, hi, hi'] using hout i
    cases ho : outputs[i]
    cases ho' : outputs'[i]
    simp_all
  rw [hinputs, houtputs]

namespace Graph

/-- The same nodes with every producer and every list of consumers replaced, by slot. -/
def rewired (g : Graph) (producer : InputSlot → Option OutputSlot → Option OutputSlot)
    (consumers : OutputSlot → List InputSlot → List InputSlot) : Graph :=
  { g with nodes := g.nodes.mapIdx fun id slot =>
      slot.map fun node => node.rewire id producer consumers }

def withEdge (g : Graph) (o : OutputSlot) (s : InputSlot) : Graph :=
  g.rewired (fun t source => if t = s then some o else source)
    fun p slots => if p = o then slots ++ [s] else slots

/-- The graph in which every consumer of `o` reads `p` instead, after those that read it
already. -/
def redirected (g : Graph) (o p : OutputSlot) : Graph :=
  g.rewired (fun _ source => if source = some o then some p else source)
    fun q slots => if o = p then slots else if q = p then slots ++ g.readers o
      else if q = o then [] else slots

section Views

variable {g : Graph} {producer : InputSlot → Option OutputSlot → Option OutputSlot}
  {consumers : OutputSlot → List InputSlot → List InputSlot}

theorem node?_rewired (k : NodeId) :
    (g.rewired producer consumers).node? k =
      (g.node? k).map fun node => node.rewire k producer consumers := by
  simp only [node?, rewired, Array.getElem?_mapIdx]
  cases g.nodes[k]? <;> rfl

theorem SameNodes.rewired (g : Graph)
    (producer : InputSlot → Option OutputSlot → Option OutputSlot)
    (consumers : OutputSlot → List InputSlot → List InputSlot) :
    g.SameNodes (g.rewired producer consumers) := by
  refine ⟨fun k => ?_, by simp [Graph.rewired], rfl, rfl, rfl⟩
  rw [Graph.frame?, node?_rewired, Option.map_map, Graph.frame?]
  congr 1
  funext node
  simp only [Function.comp_apply, Node.frame, Node.rewire, List.length_mapIdx, NodeFrame.mk.injEq,
    true_and]
  exact List.ext_getElem (by simp) fun i _ _ => by simp

theorem source?_rewired {s : InputSlot} (hs : g.HasInput s) :
    (g.rewired producer consumers).source? s = producer s (g.source? s) := by
  obtain ⟨node, hn, hlt⟩ := hs
  simp [source?, node?_rewired, hn, Node.rewire, Node.input?, hlt]

theorem readers_rewired {o : OutputSlot} (ho : g.HasOutput o) :
    (g.rewired producer consumers).readers o = consumers o (g.readers o) := by
  obtain ⟨node, hn, hlt⟩ := ho
  simp [readers, node?_rewired, hn, Node.rewire, Node.consumers, hlt]

theorem source?_eq_none_of_not_hasInput {s : InputSlot} (hs : ¬ g.HasInput s) :
    g.source? s = none := by
  rw [Option.eq_none_iff_forall_ne_some]
  exact fun o ho => hs (hasInput_of_source? ho)

theorem readers_eq_nil_of_not_hasOutput {o : OutputSlot} (ho : ¬ g.HasOutput o) :
    g.readers o = [] :=
  List.eq_nil_iff_forall_not_mem.2 fun _ hs => ho (hasOutput_of_mem_readers hs)

/-- A graph is its nodes and its wiring, and slots that no node has need no comparing. -/
theorem SameNodes.eq {h : Graph} (hsame : g.SameNodes h)
    (hsource : ∀ s, g.HasInput s → h.source? s = g.source? s)
    (hreaders : ∀ o, g.HasOutput o → h.readers o = g.readers o) : h = g := by
  have hnode : ∀ k, h.node? k = g.node? k := by
    intro k
    have hf := hsame.frame? k
    simp only [Graph.frame?] at hf
    cases hg : g.node? k with
    | none => simpa [hg] using hf
    | some n =>
      rw [hg, Option.map_some, Option.map_eq_some_iff] at hf
      obtain ⟨m, hm, hf⟩ := hf
      rw [hm, Node.eq_of_views hf (fun i => ?_) fun i => ?_]
      · rw [← source?_of_node hm, ← source?_of_node hg]
        by_cases hs : g.HasInput ⟨k, i⟩
        · exact hsource _ hs
        · rw [source?_eq_none_of_not_hasInput hs, source?_eq_none_of_not_hasInput]
          rwa [hasInput_congr hsame.frame?]
      · rw [← readers_of_node hm, ← readers_of_node hg]
        by_cases ho : g.HasOutput ⟨k, i⟩
        · exact hreaders _ ho
        · rw [readers_eq_nil_of_not_hasOutput ho, readers_eq_nil_of_not_hasOutput]
          rwa [hasOutput_congr hsame.frame?]
  have hnodes : h.nodes = g.nodes := by
    refine Array.ext hsame.size fun i hi hi' => ?_
    simpa [node?, hi, hi'] using hnode i
  have hlive := hsame.live
  have hseq := hsame.nextSeq
  have hrelated := hsame.related
  cases g
  cases h
  simp_all

end Views

/-- A rewiring with the producers and the consumers asked for is the graph asked for. -/
theorem SameNodes.eq_rewired {g h : Graph}
    {producer : InputSlot → Option OutputSlot → Option OutputSlot}
    {consumers : OutputSlot → List InputSlot → List InputSlot} (hsame : g.SameNodes h)
    (hsource : ∀ s, g.HasInput s → h.source? s = producer s (g.source? s))
    (hreaders : ∀ o, g.HasOutput o → h.readers o = consumers o (g.readers o)) :
    h = g.rewired producer consumers := by
  have hr := SameNodes.rewired g producer consumers
  have hboth : (g.rewired producer consumers).SameNodes h :=
    ⟨fun k => (hsame.frame? k).trans (hr.frame? k).symm, hsame.size.trans hr.size.symm,
      hsame.live, hsame.nextSeq, hsame.related⟩
  refine hboth.eq (fun s hs => ?_) fun o ho => ?_
  · have hs := (hasInput_congr hr.frame? s).1 hs
    rw [hsource s hs, source?_rewired hs]
  · have ho := (hasOutput_congr hr.frame? o).1 ho
    rw [hreaders o ho, readers_rewired ho]

section Asked

variable {g : Graph} {o p : OutputSlot} {s : InputSlot}

theorem link_eq_withEdge (ho : g.HasOutput o) (hs : g.HasInput s) :
    g.link o s = g.withEdge o s := by
  refine (SameNodes.link g o s).eq_rewired (fun t _ => source?_link g o s hs t) fun q _ => ?_
  rw [readers_link g o s ho]
  split
  · rename_i hq
    rw [hq]
  · rfl

theorem moveConsumers_eq_redirected (hl : g.Linked) (ho : g.HasOutput o) (hp : g.HasOutput p)
    (hop : o ≠ p) : g.moveConsumers o p (g.readers o) = g.redirected o p := by
  refine (SameNodes.moveConsumers g o p _).eq_rewired (fun t _ => ?_) fun q _ => ?_
  · rw [source?_moveConsumers g o p _ fun s hs => hl.hasInput_of_mem_readers hs]
    simp only [hl.source_iff]
  · rw [readers_moveConsumers g o p _ ho hp hop, if_neg hop]
    split
    · rename_i hq
      rw [hq]
    · rfl

theorem redirected_self (g : Graph) (o : OutputSlot) : g.redirected o o = g := by
  refine ((SameNodes.refl g).eq_rewired (fun t _ => ?_) fun q _ => ?_).symm
  · split
    · assumption
    · rfl
  · rw [if_pos rfl]

theorem readers_redirected (hp : g.HasOutput p) (hop : o ≠ p) :
    (g.redirected o p).readers p = g.readers p ++ g.readers o := by
  rw [redirected, readers_rewired hp, if_neg hop, if_pos rfl]

/-- An edge into a slot with nothing in it takes no edge away. -/
theorem Edge.withEdge (hfree : g.source? s = none) {a b : NodeId} (h : g.Edge a b) :
    (g.withEdge o s).Edge a b := by
  obtain ⟨i, q, hq, rfl⟩ := h
  refine ⟨i, q, ?_, rfl⟩
  have hne : (⟨b, i⟩ : InputSlot) ≠ s := by
    rintro rfl
    rw [hq] at hfree
    cases hfree
  rw [Graph.withEdge, source?_rewired (hasInput_of_source? hq), if_neg hne, hq]

/-- A path back to where the new edge starts closes a cycle with it. -/
theorem not_acyclic_withEdge (hs : g.HasInput s) (hfree : g.source? s = none)
    (hpath : ReflTransGen g.Edge s.node o.node) : ¬ (g.withEdge o s).Acyclic := by
  intro hac
  have hnew : (g.withEdge o s).Edge o.node s.node := by
    refine .of_source? ?_
    rw [withEdge, source?_rewired hs, if_pos rfl]
  exact hac o.node (.head' hnew (ReflTransGen.mono (fun _ _ => Edge.withEdge hfree) _ _ hpath))

/-- Only edges out of `o` are taken away when its consumers turn to `p`. -/
theorem Edge.redirected (hl : g.Linked) (p : OutputSlot) {a b : NodeId} (h : g.Edge a b) :
    (g.redirected o p).Edge a b ∨ a = o.node ∧ ∃ s ∈ g.readers o, s.node = b := by
  obtain ⟨i, q, hq, rfl⟩ := h
  by_cases hqo : q = o
  · subst hqo
    exact .inr ⟨rfl, _, (hl.source_iff _ _).1 hq, rfl⟩
  · refine .inl ⟨i, q, ?_, rfl⟩
    rw [Graph.redirected, source?_rewired (hasInput_of_source? hq), hq,
      if_neg fun h => hqo (Option.some.inj h)]

/-- A path from a consumer of `o` to `p` may run through edges that are taken away, but
after the last of them it starts at a consumer of `o` again. -/
theorem not_acyclic_redirected (hl : g.Linked) (hs : s ∈ g.readers o)
    (hpath : ReflTransGen g.Edge s.node p.node) : ¬ (g.redirected o p).Acyclic := by
  intro hac
  have hkept : ∀ x y, g.Edge x y →
      (g.redirected o p).Edge x y ∨ x = o.node ∧ ∃ s ∈ g.readers o, s.node = y :=
    fun _ _ => Edge.redirected hl p
  obtain ⟨t, ht, hback⟩ : ∃ t ∈ g.readers o,
      ReflTransGen (g.redirected o p).Edge t.node p.node := by
    rcases path_after_new_edge hkept hpath with h | ⟨_, ⟨t, ht, rfl⟩, h⟩
    · exact ⟨s, hs, h⟩
    · exact ⟨t, ht, h⟩
  have hnew : (g.redirected o p).Edge p.node t.node := by
    refine .of_source? ?_
    rw [redirected, source?_rewired (hl.hasInput_of_mem_readers ht), (hl.source_iff _ _).2 ht,
      if_pos rfl]
  exact hac p.node (.head' hnew hback)

end Asked

end Graph

namespace Edit

open LayerGraph.Graph

variable {g : Graph} {o p : OutputSlot} {s : InputSlot}

/-- From `g`, an edit succeeds exactly when the graph it is asked for has no cycle, and
that graph is its result; otherwise it fails for a reason in `refusal`. -/
structure CycleChecked (e : Edit Unit) (g asked : Graph) (refusal : GraphError → Prop) : Prop where
  succeeds_iff : (∃ h, e g = .ok () h) ↔ asked.Acyclic
  result : ∀ h, e g = .ok () h → h = asked
  refused : ∀ err h, e g = .error err h → refusal err ∧ h = g

namespace CycleChecked

variable {e : Edit Unit} {asked : Graph} {refusal : GraphError → Prop}

theorem of_ok (he : e g = .ok () asked) (hac : asked.Acyclic) :
    CycleChecked e g asked refusal where
  succeeds_iff := iff_of_true ⟨asked, he⟩ hac
  result h hok := by
    rw [he] at hok
    cases hok
    rfl
  refused err h herr := by
    rw [he] at herr
    cases herr

theorem of_error {err : GraphError} (he : e g = .error err g) (hcycle : ¬ asked.Acyclic)
    (hr : refusal err) : CycleChecked e g asked refusal where
  succeeds_iff := by
    refine iff_of_false ?_ hcycle
    rintro ⟨h, hok⟩
    rw [he] at hok
    cases hok
  result h hok := by
    rw [he] at hok
    cases hok
  refused err' h herr := by
    rw [he] at herr
    cases herr
    exact ⟨hr, rfl⟩

end CycleChecked

theorem cycleChecked_connect (hg : g.Sound) (ho : g.HasOutput o) (hs : g.HasInput s)
    (hfree : g.source? s = none) :
    CycleChecked (connect o s) g (g.withEdge o s) (· = .wouldCreateCycle o s) := by
  cases hr : g.reaches s.node o.node with
  | true =>
    exact .of_error (connect_cycle ho hs hfree hr)
      (not_acyclic_withEdge hs hfree (hg.reaches_iff.1 hr)) rfl
  | false =>
    have hc : CanConnect g o s := ⟨ho, hs, hfree, hr⟩
    rw [← link_eq_withEdge ho hs]
    exact .of_ok (connect_ok hc) (hg.link hc).acyclic

theorem cycleChecked_moveAll (hg : g.Sound) (ho : g.HasOutput o) (hp : g.HasOutput p) :
    CycleChecked (moveAll o p) g (g.redirected o p) fun err =>
      ∃ s ∈ g.readers o, ReflTransGen g.Edge s.node p.node ∧ err = .wouldCreateCycle p s := by
  by_cases hop : o = p
  · subst hop
    rw [redirected_self]
    exact .of_ok (moveAll_self ho) hg.acyclic
  · cases hr : (g.readers o).find? (fun s => g.reaches s.node p.node) with
    | some s =>
      have hs := List.mem_of_find?_eq_some hr
      have hreach : g.reaches s.node p.node = true := by simpa using List.find?_some hr
      have hpath := hg.reaches_iff.1 hreach
      exact .of_error (moveAll_cycle ho hp hop hr) (not_acyclic_redirected hg.linked hs hpath)
        ⟨s, hs, hpath, rfl⟩
    | none =>
      have hc : CanMove g o p := ⟨ho, hp, hop, by simpa using hr⟩
      rw [← moveConsumers_eq_redirected hg.linked ho hp hop]
      exact .of_ok (moveAll_ok hc) (hg.moveConsumers hc).acyclic

/-- Connecting and moving consumers fail on existing slots exactly when the graph asked
for has a cycle. -/
theorem cycle_check_exact (hg : g.Reachable) :
    (∀ o s, g.HasOutput o → g.HasInput s → g.source? s = none →
      CycleChecked (connect o s) g (g.withEdge o s) (· = .wouldCreateCycle o s)) ∧
    ∀ o p, g.HasOutput o → g.HasOutput p →
      CycleChecked (moveAll o p) g (g.redirected o p) (fun err =>
        ∃ s ∈ g.readers o, ReflTransGen g.Edge s.node p.node ∧ err = .wouldCreateCycle p s) ∧
      (o ≠ p → (g.redirected o p).readers p = g.readers p ++ g.readers o) :=
  ⟨fun _ _ ho hs hfree => cycleChecked_connect hg.sound ho hs hfree, fun _ _ ho hp =>
    ⟨cycleChecked_moveAll hg.sound ho hp, readers_redirected hp⟩⟩

/-- A sum with one slot free, read twice by a second sum. -/
def braid : Graph := Graph.empty.changed
  [.add (.input 0) "x", .add .addition "partial", .add .addition "twice", .connect ⟨0, 0⟩ ⟨1, 0⟩,
    .connect ⟨1, 0⟩ ⟨2, 0⟩, .connect ⟨1, 0⟩ ⟨2, 1⟩]

theorem cycle_check_exact_braid :
    braid.Reachable ∧
      connect ⟨2, 0⟩ ⟨1, 1⟩ braid = .error (.wouldCreateCycle ⟨2, 0⟩ ⟨1, 1⟩) braid ∧
      ¬ (braid.withEdge ⟨2, 0⟩ ⟨1, 1⟩).Acyclic ∧ (braid.withEdge ⟨0, 0⟩ ⟨1, 1⟩).Acyclic ∧
      ¬ (braid.redirected ⟨0, 0⟩ ⟨2, 0⟩).Acyclic ∧ (braid.redirected ⟨1, 0⟩ ⟨0, 0⟩).Acyclic ∧
      (braid.redirected ⟨1, 0⟩ ⟨0, 0⟩).readers ⟨0, 0⟩ = [⟨1, 0⟩, ⟨2, 0⟩, ⟨2, 1⟩] := by
  have hg : braid.Reachable := .changed .empty _
  have hx : braid.HasOutput ⟨0, 0⟩ := ⟨_, rfl, by decide⟩
  have hpartial : braid.HasOutput ⟨1, 0⟩ := ⟨_, rfl, by decide⟩
  have htwice : braid.HasOutput ⟨2, 0⟩ := ⟨_, rfl, by decide⟩
  have hslot : braid.HasInput ⟨1, 1⟩ := ⟨_, rfl, by decide⟩
  obtain ⟨hconnect, hmove⟩ := cycle_check_exact hg
  have hback := hconnect ⟨2, 0⟩ ⟨1, 1⟩ htwice hslot rfl
  have hforth := hconnect ⟨0, 0⟩ ⟨1, 1⟩ hx hslot rfl
  have hup := (hmove ⟨0, 0⟩ ⟨2, 0⟩ hx htwice).1
  obtain ⟨hdown, hreaders⟩ := hmove ⟨1, 0⟩ ⟨0, 0⟩ hpartial hx
  have hrefused : connect ⟨2, 0⟩ ⟨1, 1⟩ braid =
      .error (.wouldCreateCycle ⟨2, 0⟩ ⟨1, 1⟩) braid := rfl
  have hheld : moveAll ⟨0, 0⟩ ⟨2, 0⟩ braid = .error (.wouldCreateCycle ⟨2, 0⟩ ⟨1, 0⟩) braid := rfl
  refine ⟨hg, hrefused, fun hac => ?_, hforth.succeeds_iff.1 ⟨_, rfl⟩, fun hac => ?_,
    hdown.succeeds_iff.1 ⟨_, rfl⟩, hreaders (by decide)⟩
  · obtain ⟨h, hok⟩ := hback.succeeds_iff.2 hac
    rw [hrefused] at hok
    cases hok
  · obtain ⟨h, hok⟩ := hup.succeeds_iff.2 hac
    rw [hheld] at hok
    cases hok

end Edit

end LayerGraph
