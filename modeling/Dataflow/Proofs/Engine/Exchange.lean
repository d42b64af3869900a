import Dataflow.Proofs.Engine.Activity
import Dataflow.Proofs.Engine.Firing

/-!
# Nodes that use each port once

A node that pops every input once and pushes every output once moves the rates of its ports, whatever
the order of these operations. With a satisfied guard all of them succeed, also those at the two ends of
an edge from a node to itself.
-/

namespace Dataflow

variable {κ : Type} [ElementKind κ] {σ ω α : Type}

open ElementKind (Carrier)

/-- In each run as this node the behaviour pops every input once, pushes every output once, and ends with
success. -/
def Behaviour.Exchanges (b : Behaviour κ σ ω) (kind : EdgeId → κ) (node : Node) : Prop :=
  ∀ (memory : σ) (world : World ω) (given : (id : EdgeId) → List (Carrier (kind id))),
    (∀ slot id rate, node.inputAccess slot = .ok (id, rate) → (given id).length = rate) →
    (b.run (memory, world)).Follows node
      { given := given
        offers := fun _ _ ↦ True
        ends := fun r ↦ r.1 = .ok .success
        refused := fun _ _ _ ↦ True } node.inputEdges node.outputEdges

namespace Graph

variable {g : Graph} {n : NodeId} {node : Node} {kind : EdgeId → κ} {room : Levels}
  {channels : List (Channel κ)} {proto : Protocol kind α}

theorem Coherent.rate_of_inputAccess (hg : g.Coherent) (hnode : g.nodes[n]? = some node) {slot : Nat}
    {id : EdgeId} {rate : Nat} (h : node.inputAccess slot = .ok (id, rate)) :
    id ∈ g.edgesAt .input n ∧ rate = g.rateAt .input id := by
  obtain ⟨port, hport, rfl⟩ := Node.inputAccess_eq_ok_iff.mp h
  exact hg.rate_of_getElem? (d := .input) hnode hport

theorem Coherent.rate_of_outputAccess (hg : g.Coherent) (hnode : g.nodes[n]? = some node)
    {slot : Nat} {id : EdgeId} {rate : Nat} (h : node.outputAccess slot = .ok (id, rate)) :
    id ∈ g.edgesAt .output n ∧ rate = g.rateAt .output id := by
  obtain ⟨port, hport, rfl⟩ := Node.outputAccess_eq_ok_iff.mp h
  exact hg.rate_of_getElem? (d := .output) hnode hport

theorem Coherent.lt_of_edgeAt (hg : g.Coherent) (hnode : g.nodes[n]? = some node) {d : Direction}
    {slot : Nat} {id : EdgeId} (h : node.edgeAt d slot = some id) : id < g.edges.length :=
  hg.lt_of_mem_edgesAt (mem_edgesAt_of_edgeAt hnode h)

theorem Coherent.nodup_inputEdges (hg : g.Coherent) (hnode : g.nodes[n]? = some node) :
    node.inputEdges.Nodup := by
  have hnodup := hg.nodup_edgesAt .input n
  rwa [edgesAt_of_getElem? hnode] at hnodup

theorem Coherent.nodup_outputEdges (hg : g.Coherent) (hnode : g.nodes[n]? = some node) :
    node.outputEdges.Nodup := by
  have hnodup := hg.nodup_edgesAt .output n
  rwa [edgesAt_of_getElem? hnode] at hnodup

/-- A node that finds its tokens can take as many as its rate tells. -/
theorem Coherent.length_take_contents (hg : g.Coherent)
    (hfit : Channel.Fit kind room g.edges.length channels) (hfed : g.Fed n (Channel.level channels))
    {id : EdgeId} (hid : id ∈ g.edgesAt .input n) :
    ((Channel.contents channels id (kind id)).take (g.rateAt .input id)).length =
      g.rateAt .input id := by
  have hrate := hfed id
  rw [hg.moved_of_mem hid] at hrate
  calc
    ((Channel.contents channels id (kind id)).take (g.rateAt .input id)).length =
        min (g.rateAt .input id) (Channel.level channels id) := by
      rw [List.length_take, hfit.length_contents (hg.lt_of_mem_edgesAt hid)]
    _ = g.rateAt .input id := Nat.min_eq_left hrate

theorem fit_exec (hfit : Channel.Fit kind room g.edges.length channels) (node : Node)
    (act : Activity κ α) : Channel.Fit kind room g.edges.length (act.exec node n channels).2 :=
  hfit.of_shape_eq (act.altered_of_exec node n channels).shape

/-- Where the guard is satisfied, there is all that an activity with these rates needs. -/
theorem Coherent.supplied_of_guarded (hg : g.Coherent) (hnode : g.nodes[n]? = some node)
    (hguarded : g.Guarded room n (Channel.level channels))
    (hle : ∀ id < g.edges.length, Channel.level channels id ≤ room id)
    (hgiven : ∀ id ∈ g.edgesAt .input n,
      proto.given id <+: Channel.contents channels id (kind id)) :
    Supplied node proto room node.inputEdges node.outputEdges channels where
  given id hid := hgiven id (edgesAt_of_getElem? hnode .input ▸ hid)
  free id hid slot rate hport := by
    obtain ⟨hmem, rfl⟩ := hg.rate_of_outputAccess hnode hport
    have hroom := (hg.guarded_iff.mp hguarded).2 id
    rw [hg.moved_of_mem hmem] at hroom
    have hlevel := hle id (hg.lt_of_mem_edgesAt hmem)
    omega

/-- A trade at the rates of the node brings an edge to its next level. -/
theorem Coherent.length_traded (hg : g.Coherent) {β : Type} {before given pushed : List β}
    {id : EdgeId} {level : Levels} (hbefore : before.length = level id)
    (hgiven : id ∈ g.edgesAt .input n → given.length = g.rateAt .input id ∧
      given.length ≤ before.length)
    (hpushed : id ∈ g.edgesAt .output n → pushed.length = g.rateAt .output id) :
    (traded before given pushed (id ∈ g.edgesAt .input n) (id ∈ g.edgesAt .output n)).length =
      g.after n level id := by
  rw [traded, List.length_append, after, hg.moved_eq, hg.moved_eq]
  by_cases hi : id ∈ g.edgesAt .input n <;> by_cases ho : id ∈ g.edgesAt .output n <;>
    simp only [hi, ho, if_true, if_false, List.length_drop, List.length_nil, forall_true_left]
      at hgiven hpushed ⊢ <;> omega

/-- An activity that uses each port once moves the rates of the node. -/
theorem Coherent.exec_of_follows (hg : g.Coherent) (hnode : g.nodes[n]? = some node)
    {act : Activity κ α} (h : act.Follows node proto node.inputEdges node.outputEdges)
    (hfit : Channel.Fit kind room g.edges.length channels)
    (hguarded : g.Guarded room n (Channel.level channels))
    (hgiven : ∀ id ∈ g.edgesAt .input n,
      proto.given id <+: Channel.contents channels id (kind id) ∧
        (proto.given id).length = g.rateAt .input id) :
    proto.ends (act.exec node n channels).1 ∧
      Channel.level (act.exec node n channels).2 = g.after n (Channel.level channels) ∧
      ∃ pushed : (id : EdgeId) → List (Carrier (kind id)),
        (∀ id ∈ g.edgesAt .output n, proto.offers id (pushed id)) ∧
        ∀ id, Channel.contents (act.exec node n channels).2 id (kind id) =
          traded (Channel.contents channels id (kind id)) (proto.given id) (pushed id)
            (id ∈ g.edgesAt .input n) (id ∈ g.edgesAt .output n) := by
  have hsupplied := hg.supplied_of_guarded hnode hguarded (fun id ↦ hfit.level_le)
    fun id hid ↦ (hgiven id hid).1
  obtain ⟨hends, pushed, hpushed, htraded⟩ := h.exec hfit
    (fun d slot id hslot ↦ hg.lt_of_edgeAt hnode hslot) (hg.nodup_inputEdges hnode)
    (hg.nodup_outputEdges hnode) hsupplied n
  have hin : node.inputEdges = g.edgesAt .input n := (edgesAt_of_getElem? hnode .input).symm
  have hout : node.outputEdges = g.edgesAt .output n := (edgesAt_of_getElem? hnode .output).symm
  simp only [hin, hout] at hpushed htraded
  refine ⟨hends, ?_, pushed, fun id hid ↦ (hpushed id hid).1, htraded⟩
  funext id
  by_cases hid : id < g.edges.length
  · calc
      Channel.level (act.exec node n channels).2 id =
          (Channel.contents (act.exec node n channels).2 id (kind id)).length :=
        ((fit_exec hfit node act).length_contents hid).symm
      _ = g.after n (Channel.level channels) id := by
        rw [htraded]
        refine hg.length_traded (hfit.length_contents hid) (fun hmem ↦ ?_) fun hmem ↦ ?_
        · exact ⟨(hgiven id hmem).2, (hgiven id hmem).1.length_le⟩
        · obtain ⟨slot, hport⟩ := (hpushed id hmem).2
          exact (hg.rate_of_outputAccess hnode hport).2
  · have hnot (d : Direction) : id ∉ g.edgesAt d n := fun hmem ↦ hid (hg.lt_of_mem_edgesAt hmem)
    rw [level_exec_of_forall_not_mem hnode hnot, hg.after_of_forall_not_mem hnot]

end Graph

/-- To use each port once is to move the rates of the node. -/
theorem Behaviour.Exchanges.moves {b : Behaviour κ σ ω} {p : Plan} {kind : EdgeId → κ} {n : NodeId}
    (hg : p.graph.Coherent)
    (h : ∀ node, p.graph.nodes[n]? = some node → b.Exchanges kind node) : b.Moves p kind n := by
  intro node hnode memory world channels hfit hguarded
  have hfed := hguarded.fed hg
  have hfollows := h node hnode memory world
    (fun id ↦ (Channel.contents channels id (kind id)).take (p.graph.rateAt .input id))
    fun slot id rate hport ↦ by
      obtain ⟨hmem, rfl⟩ := hg.rate_of_inputAccess hnode hport
      exact hg.length_take_contents hfit hfed hmem
  obtain ⟨hends, hlevel, -⟩ := hg.exec_of_follows hnode hfollows hfit hguarded fun id hid ↦
    ⟨List.take_prefix _ _, hg.length_take_contents hfit hfed hid⟩
  exact ⟨hends, hlevel⟩

end Dataflow
