import LayerGraph.Proofs.Building
import LayerGraph.Proofs.Renumbering

/-!
# Order of the layers

The order in which a definition lists its layers decides the ids of the nodes, and with them
the order of the workloads, the numbers of the buffers and the places of the bindings. It
decides nothing that a caller can see who knows the tensors by name.
-/

set_option autoImplicit false

namespace LayerGraph

open Relation
open LayerGraph.Graph

namespace Definition

variable {d d' : Definition} {g g' : Graph}

section Rearranged

variable (hperm : d.layers.Perm d'.layers)

include hperm

theorem Feeds.of_perm {a b : String} (h : d.Feeds a b) : d'.Feeds a b := by
  obtain ⟨l, hl, hname, hsource⟩ := h
  exact ⟨l, hperm.mem_iff.1 hl, hname, hsource⟩

theorem Offers.of_perm {s : LayerSource} (h : d.Offers s) : d'.Offers s := by
  obtain ⟨p, hp, hname, hslot⟩ := h
  exact ⟨p, hperm.mem_iff.1 hp, hname, hslot⟩

theorem WellFormed.of_perm (hd : d.WellFormed) : d'.WellFormed where
  names := (hperm.map _).nodup_iff.1 hd.names
  complete l hl := hd.complete l (hperm.mem_iff.2 hl)
  offered l hl s hs := (hd.offered l (hperm.mem_iff.2 hl) s hs).of_perm hperm
  acyclic name hcycle := hd.acyclic name
    (TransGen.mono (fun _ _ => Feeds.of_perm hperm.symm) _ _ hcycle)

/-- Every layer of one definition has a place in the other. -/
theorem exists_place : ∃ ρ : NodeId → NodeId, ∀ i l, d.layers[i]? = some l →
    d'.layers[ρ i]? = some l := by
  have hplace : ∀ i : NodeId, ∃ j : NodeId,
      ∀ l, d.layers[i]? = some l → d'.layers[j]? = some l := by
    intro i
    cases hi : d.layers[i]? with
    | none => exact ⟨0, by simp⟩
    | some l =>
      obtain ⟨j, hj⟩ := List.mem_iff_getElem?.1 (hperm.mem_iff.1 (List.mem_of_getElem? hi))
      exact ⟨j, fun l' hl' => Option.some.inj hl' ▸ hj⟩
  choose ρ hρ using hplace
  exact ⟨ρ, hρ⟩

end Rearranged

theorem Describes.contains_iff (hg : d.Describes g) {i : NodeId} :
    g.contains i = true ↔ ∃ l, d.layers[i]? = some l := by
  rw [contains_eq_frame?, hg.node, Option.isSome_map, Option.isSome_iff_exists]

theorem Describes.exists_node (hg : d.Describes g) {i : NodeId} {l : Layer}
    (hi : d.layers[i]? = some l) : ∃ node, g.node? i = some node ∧ node.name = l.name ∧
      node.operation = l.operation ∧ ∀ k, node.outputDescriptor? k = l.outputs[k]? := by
  obtain ⟨node, hn, hf⟩ := frame?_eq_some_iff.1 ((hg.node i).trans (by rw [hi]; rfl))
  refine ⟨node, hn, congrArg NodeFrame.name hf, congrArg NodeFrame.operation hf, fun k => ?_⟩
  rw [← outputDescriptor?_of_node hn, outputDescriptor?_eq_frame, hg.node, hi]
  cases hk : l.outputs[k]? <;> simp [Layer.frame, hk]

theorem Wires.of_place {ρ : NodeId → NodeId}
    (hρ : ∀ i l, d.layers[i]? = some l → d'.layers[ρ i]? = some l) {s : InputSlot}
    {o : OutputSlot} (h : d.Wires s o) :
    d'.Wires ⟨ρ s.node, s.index⟩ ⟨ρ o.node, o.index⟩ := by
  obtain ⟨l, source, p, hl, hsource, hp, hname, hindex⟩ := h
  exact ⟨l, source, p, hρ _ _ hl, hsource, hρ _ _ hp, hname, hindex⟩

/-- The graphs of rearranged definitions are renumbered. -/
theorem Describes.renumbers {ρ : NodeId → NodeId} (hd : d.WellFormed) (hd' : d'.WellFormed)
    (hperm : d.layers.Perm d'.layers)
    (hρ : ∀ i l, d.layers[i]? = some l → d'.layers[ρ i]? = some l) (hg : d.Describes g)
    (hg' : d'.Describes g') : g.Renumbers ρ g' where
  node i node hn := by
    obtain ⟨l, hl⟩ := hg.contains_iff.1 (Graph.contains_iff.2 ⟨node, hn⟩)
    obtain ⟨node', hn', hname, hop, hout⟩ := hg.exists_node hl
    obtain ⟨other, ho, hname', hop', hout'⟩ := hg'.exists_node (hρ i l hl)
    obtain rfl := Option.some.inj (hn.symm.trans hn')
    exact ⟨other, ho, hname'.trans hname.symm, hop'.trans hop.symm, fun k => by rw [hout', hout]⟩
  source i k hi := by
    obtain ⟨l, hl⟩ := hg.contains_iff.1 hi
    cases ho : g.source? ⟨i, k⟩ with
    | some o => exact (hg'.source _ _).2 (((hg.source _ _).1 ho).of_place hρ)
    | none =>
      rw [Option.map_none, Option.eq_none_iff_forall_ne_some]
      intro o ho'
      obtain ⟨l', _, _, hl', hinput, -⟩ := (hg'.source _ _).1 ho'
      obtain rfl := Option.some.inj ((hρ i l hl).symm.trans hl')
      have hsome := hg.connected i l k hl (List.getElem?_eq_some_iff.1 hinput).1
      simp [ho] at hsome
  injective i j hi hj hij := by
    obtain ⟨l, hl⟩ := hg.contains_iff.1 hi
    obtain ⟨m, hm⟩ := hg.contains_iff.1 hj
    have hsame : some l = some m := by rw [← hρ i l hl, ← hρ j m hm, hij]
    exact index_unique_of_nodup hd.names hl hm (congrArg (·.name) (Option.some.inj hsame))
  onto j hj := by
    obtain ⟨m, hm⟩ := hg'.contains_iff.1 hj
    obtain ⟨i, hi⟩ := List.mem_iff_getElem?.1 (hperm.mem_iff.2 (List.mem_of_getElem? hm))
    exact ⟨i, hg.contains_iff.2 ⟨m, hi⟩, index_unique_of_nodup hd'.names (hρ i m hi) hm rfl⟩

variable {f : FloatAddition}

theorem exists_renumbers (hperm : d.layers.Perm d'.layers) (hb : d.build = .ok g)
    (hb' : d'.build = .ok g') : ∃ ρ, g.Renumbers ρ g' := by
  obtain ⟨hd, hg⟩ := of_build hb
  obtain ⟨hd', hg'⟩ := of_build hb'
  obtain ⟨ρ, hρ⟩ := exists_place hperm
  exact ⟨ρ, hg.renumbers hd hd' hperm hρ hg'⟩

theorem exists_build_of_perm (hperm : d.layers.Perm d'.layers) (h : ∃ g, d.build = .ok g) :
    ∃ g', d'.build = .ok g' := by
  obtain ⟨g, hb⟩ := h
  exact exists_build ((of_build hb).1.of_perm hperm)

theorem validate_of_perm (hperm : d.layers.Perm d'.layers) (hb : d.build = .ok g)
    (hb' : d'.build = .ok g') (h : g.validate = .ok ()) : g'.validate = .ok () := by
  obtain ⟨ρ, hρ⟩ := exists_renumbers hperm hb hb'
  have hg := (of_build hb).2.reachable.sound
  have hg' := (of_build hb').2.reachable.sound
  obtain ⟨table, hv⟩ := hg.validate_eq_ok_iff.1 h
  exact hg'.validate_eq_ok_iff.2 (hρ.exists_valid hv hg')

theorem load_of_perm (hperm : d.layers.Perm d'.layers) (hb : d.build = .ok g)
    (hb' : d'.build = .ok g')
    (h : ∃ n, (Network.load g referenceId (referenceBackend f).registry).1 = .ok n) :
    ∃ n, (Network.load g' referenceId (referenceBackend f).registry).1 = .ok n := by
  obtain ⟨n, hn⟩ := h
  obtain ⟨ρ, hρ⟩ := exists_renumbers hperm hb hb'
  obtain ⟨buffers, hserves⟩ := Network.Serves.of_load (of_build hb).2.reachable.sound hn
  have hv := hserves.valid
  obtain ⟨table, hv'⟩ := hρ.exists_valid hv (of_build hb').2.reachable.sound
  exact Network.exists_load hv' (hρ.supported hv.sound hv.typed hserves.supported)

/-- Definitions that list the same layers build together, are valid together and load
together, and whatever was called before, a call does the same on the two networks for a
caller who knows the tensors by name. -/
theorem layer_order_irrelevant (hperm : d.layers.Perm d'.layers) :
    ((∃ g, d.build = .ok g) ↔ ∃ g', d'.build = .ok g') ∧
    ∀ g g', d.build = .ok g → d'.build = .ok g' →
      (g.validate = .ok () ↔ g'.validate = .ok ()) ∧
      ((∃ n, (Network.load g referenceId (referenceBackend f).registry).1 = .ok n) ↔
        ∃ n, (Network.load g' referenceId (referenceBackend f).registry).1 = .ok n) ∧
      ∀ n n' m m', (Network.load g referenceId (referenceBackend f).registry).1 = .ok n →
        (Network.load g' referenceId (referenceBackend f).registry).1 = .ok n' →
        n.Leads m → n'.Leads m' →
        ∀ inputs inputs' outputs outputs', inputs.Perm inputs' → outputs.Perm outputs' →
          Network.SameByName outputs outputs' (m.execute inputs outputs)
            (m'.execute inputs' outputs') := by
  refine ⟨⟨exists_build_of_perm hperm, exists_build_of_perm hperm.symm⟩,
    fun g g' hb hb' => ⟨⟨?_, ?_⟩, ⟨?_, ?_⟩, fun n n' m m' hn hn' hm hm' => ?_⟩⟩
  · exact validate_of_perm hperm hb hb'
  · exact validate_of_perm hperm.symm hb' hb
  · exact load_of_perm hperm hb hb'
  · exact load_of_perm hperm.symm hb' hb
  · intro inputs inputs' outputs outputs' hin hout
    obtain ⟨ρ, hρ⟩ := exists_renumbers hperm hb hb'
    obtain ⟨buffers, hserves⟩ := Network.Serves.of_load (of_build hb).2.reachable.sound hn
    obtain ⟨buffers', hserves'⟩ := Network.Serves.of_load (of_build hb').2.reachable.sound hn'
    exact Network.Serves.sameByName hρ (hserves.leads hm).1 (hserves'.leads hm').1 hin hout

open Network (wide tall swap)

def crossed : Definition :=
  ⟨[⟨"a", .input 0, [], [wide]⟩, ⟨"b", .input 1, [], [wide]⟩,
    ⟨"sum", .addition, [⟨"a", 0⟩, ⟨"b", 0⟩], [wide]⟩,
    ⟨"turned", .transpose swap, [⟨"b", 0⟩], [tall]⟩,
    ⟨"s", .output 0, [⟨"sum", 0⟩], []⟩, ⟨"t", .output 1, [⟨"turned", 0⟩], []⟩]⟩

/-- The same layers from the last to the first. -/
def uncrossed : Definition := ⟨crossed.layers.reverse⟩

def crossedGraph : Graph := crossed.build.toOption.get (by decide +kernel)

def uncrossedGraph : Graph := uncrossed.build.toOption.get (by decide +kernel)

def crossedNetwork : Network :=
  (Network.load crossedGraph referenceId (referenceBackend .nearest).registry).1.toOption.get
    (by decide +kernel)

theorem layer_order_irrelevant_crossed :
    let registry := (referenceBackend .nearest).registry
    let a : NamedTensor := ⟨"a", ⟨wide, ⟨.f32, .replicate 6 0x3f800000⟩, by decide⟩⟩
    let b : NamedTensor := ⟨"b", ⟨wide, ⟨.f32, #[0x3f800000, 0x40000000, 0x40400000, 0x40800000,
      0x40a00000, 0x40c00000]⟩, by decide⟩⟩
    let s : NamedTensor := ⟨"s", ⟨wide, ⟨.f32, .replicate 6 7⟩, by decide⟩⟩
    let t : NamedTensor := ⟨"t", ⟨tall, ⟨.f32, .replicate 6 7⟩, by decide⟩⟩
    let turned : Memory := ⟨.f32, #[0x3f800000, 0x40800000, 0x40000000, 0x40a00000, 0x40400000,
      0x40c00000]⟩
    let names (g : Graph) := g.bindingTable.toOption.map fun table => table.inputs.map (·.name)
    crossed.layers.Perm uncrossed.layers ∧ crossed.build = .ok crossedGraph ∧
      uncrossed.build = .ok uncrossedGraph ∧ names crossedGraph = some ["a", "b"] ∧
      names uncrossedGraph = some ["b", "a"] ∧
      (Network.load crossedGraph referenceId registry).1 = .ok crossedNetwork ∧
      (crossedNetwork.execute [a, b] [s, t]).outcome = .ok () ∧
      (crossedNetwork.execute [a, b] [s, t]).outputs[1]? = some turned ∧
      ∃ n, (Network.load uncrossedGraph referenceId registry).1 = .ok n ∧
        (n.execute [b, a] [t, s]).outcome = .ok () ∧
        (n.execute [b, a] [t, s]).outputs[0]? = some turned := by
  intro registry a b s t turned names
  have hperm : crossed.layers.Perm uncrossed.layers := (List.reverse_perm _).symm
  have hb : crossed.build = .ok crossedGraph := eq_ok_get (by decide +kernel)
  have hb' : uncrossed.build = .ok uncrossedGraph := eq_ok_get (by decide +kernel)
  have hload : (Network.load crossedGraph referenceId registry).1 = .ok crossedNetwork :=
    eq_ok_get _
  have hrun : (crossedNetwork.execute [a, b] [s, t]).outcome = .ok () ∧
      (crossedNetwork.execute [a, b] [s, t]).outputs[1]? = some turned := by decide +kernel
  obtain ⟨-, hloads, hcalls⟩ := (layer_order_irrelevant hperm).2 _ _ hb hb'
  obtain ⟨n, hn⟩ := hloads.1 ⟨_, hload⟩
  have hsame := hcalls _ _ _ _ hload hn .refl .refl [a, b] [b, a] [s, t] [t, s]
    (List.Perm.swap _ _ _) (List.Perm.swap _ _ _)
  obtain ⟨m, hm, hm'⟩ := hsame.contents hrun.1 1 0 t t rfl rfl rfl
  exact ⟨hperm, hb, hb', by decide +kernel, by decide +kernel, hload, hrun.1, hrun.2, n, hn,
    hsame.accepted.1 hrun.1, hm'.trans (hm.symm.trans hrun.2)⟩

end Definition

end LayerGraph
