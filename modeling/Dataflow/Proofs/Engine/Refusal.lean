import Dataflow.Proofs.Engine.Exchange

/-!
# Firings that are refused

In a fixed order a node is fired unasked. Where its guard is not satisfied, one of its operations is
refused. If the node then leaves that port alone, its rate has not been moved there in the end, so the
firing does not pass for a success, whatever the node says.
-/

namespace Dataflow

variable {κ : Type} [ElementKind κ] {α : Type}

open ElementKind (Carrier)

namespace Graph

variable {g : Graph} {n : NodeId} {node : Node} {kind : EdgeId → κ} {room : Levels}
  {channels : List (Channel κ)} {proto : Protocol kind α}

/-- A node has one port at each end of an edge. -/
theorem Coherent.slot_unique (hg : g.Coherent) (hnode : g.nodes[n]? = some node) {d : Direction}
    {slot slot' : Nat} {id : EdgeId} (h : node.edgeAt d slot = some id)
    (h' : node.edgeAt d slot' = some id) : slot' = slot := by
  have hport {slot : Nat} (h : node.edgeAt d slot = some id) :
      ∃ e, g.edges[id]? = some e ∧ e.portAt d = ⟨n, d, slot⟩ := by
    obtain ⟨⟨port, edge⟩, hs, hedge⟩ := Option.bind_eq_some_iff.mp h
    cases hedge
    obtain ⟨e, he, hport⟩ := hg.bound ((socketIn_of_getElem? hnode d slot).trans hs)
    exact ⟨e, he, hport.symm⟩
  obtain ⟨e, he, hslot⟩ := hport h
  obtain ⟨e', he', hslot'⟩ := hport h'
  cases Option.some.inj (he.symm.trans he')
  exact congrArg PortRef.slot (hslot'.symm.trans hslot)

theorem exists_edgeAt_of_mem (hnode : g.nodes[n]? = some node) {d : Direction} {id : EdgeId}
    (h : id ∈ g.edgesAt d n) : ∃ slot, node.edgeAt d slot = some id := by
  obtain ⟨s, hs, hedge⟩ := List.mem_filterMap.mp (edgesAt_of_getElem? hnode d ▸ h)
  obtain ⟨slot, hslot⟩ := List.mem_iff_getElem?.mp hs
  exact ⟨slot, Option.bind_eq_some_iff.mpr ⟨s, hslot, hedge⟩⟩

theorem exists_outputAccess_of_mem (hnode : g.nodes[n]? = some node) {id : EdgeId}
    (h : id ∈ g.edgesAt .output n) : ∃ slot rate, node.outputAccess slot = .ok (id, rate) := by
  obtain ⟨slot, hslot⟩ := exists_edgeAt_of_mem hnode h
  obtain ⟨⟨port, edge⟩, hs, hedge⟩ := Option.bind_eq_some_iff.mp hslot
  cases hedge
  exact ⟨slot, port.rate.toNat, Node.outputAccess_eq_ok_iff.mpr ⟨port, hs, rfl⟩⟩

/-- What the node has on both sides suffices on both. -/
structure Loops (g : Graph) (room : Levels) (n : NodeId) (level : Levels) : Prop where
  input {id : EdgeId} (hin : id ∈ g.edgesAt .input n) (hout : id ∈ g.edgesAt .output n) :
    g.rateAt .input id ≤ level id
  output {id : EdgeId} (hin : id ∈ g.edgesAt .input n) (hout : id ∈ g.edgesAt .output n) :
    level id + g.rateAt .output id ≤ room id

/-- The edges from a node to itself have their initial number of elements. -/
def LoopsKept (g : Graph) (level : Levels) : Prop :=
  ∀ (id : EdgeId) (e : Edge), g.edges[id]? = some e → e.source.node = e.target.node →
    level id = g.delay id

theorem pending_edges (hnode : g.nodes[n]? = some node) (d : Direction) :
    pending node.inputEdges node.outputEdges d = g.edgesAt d n := by
  rw [edgesAt_of_getElem? hnode]
  cases d <;> rfl

theorem Coherent.exposed_of_loops (hg : g.Coherent) (hnode : g.nodes[n]? = some node)
    (hgiven : ∀ id ∈ g.edgesAt .input n, (proto.given id).length = g.rateAt .input id ∧
      (g.rateAt .input id ≤ Channel.level channels id →
        proto.given id <+: Channel.contents channels id (kind id)))
    (hloops : g.Loops room n (Channel.level channels)) :
    Exposed node proto room node.inputEdges node.outputEdges channels where
  given id hid henough := by
    obtain ⟨hlength, hpre⟩ := hgiven id (pending_edges hnode .input ▸ hid)
    exact hpre (hlength ▸ henough)
  loops d id hid slot hslot := by
    rw [pending_edges hnode] at hid
    have hflip := mem_edgesAt_of_edgeAt hnode hslot
    cases d with
    | input =>
      change (proto.given id).length ≤ _
      rw [(hgiven id hid).1]
      exact hloops.input hid hflip
    | output =>
      intro slot' rate hport
      rw [(hg.rate_of_outputAccess hnode hport).2]
      exact hloops.output hflip hid

/-- Where the guard is not satisfied, some edge has too little on the side of the node. -/
theorem Coherent.exists_not_suffices (hg : g.Coherent) (hnode : g.nodes[n]? = some node)
    (hnot : ¬ g.Guarded room n (Channel.level channels))
    (hgiven : ∀ id ∈ g.edgesAt .input n, (proto.given id).length = g.rateAt .input id) :
    ∃ d, ∃ id ∈ g.edgesAt d n, ¬ Suffices node proto room channels d id := by
  have hmem {d : Direction} {id : EdgeId} {level : Nat} (h : ¬ g.moved d n id ≤ level) :
      id ∈ g.edgesAt d n := by
    by_contra hid
    rw [hg.moved_of_not_mem hid] at h
    exact h (Nat.zero_le _)
  rw [hg.guarded_iff, not_and_or, Fed, not_forall, not_forall] at hnot
  rcases hnot with ⟨id, hid⟩ | ⟨id, hid⟩
  · refine ⟨.input, id, hmem hid, fun hsuffices ↦ hid ?_⟩
    rw [hg.moved_of_mem (hmem hid), ← hgiven id (hmem hid)]
    exact hsuffices
  · refine ⟨.output, id, hmem hid, fun hsuffices ↦ hid ?_⟩
    obtain ⟨slot, rate, hport⟩ := exists_outputAccess_of_mem hnode (hmem hid)
    have hroom := hsuffices slot rate hport
    rw [(hg.rate_of_outputAccess hnode hport).2] at hroom
    rw [hg.moved_of_mem (hmem hid)]
    exact Nat.le_sub_of_add_le' hroom

/-- With an unsatisfied guard, some port is not served. -/
theorem Coherent.exec_refused (hg : g.Coherent) (hnode : g.nodes[n]? = some node)
    {act : Activity κ α} {P : α → Prop}
    (h : act.Follows node proto node.inputEdges node.outputEdges)
    (hrefused : ∀ d slot act, proto.refused d slot act → act.Leaves d slot P)
    (hfit : Channel.Fit kind room g.edges.length channels)
    (hnot : ¬ g.Guarded room n (Channel.level channels))
    (hgiven : ∀ id ∈ g.edgesAt .input n, (proto.given id).length = g.rateAt .input id ∧
      (g.rateAt .input id ≤ Channel.level channels id →
        proto.given id <+: Channel.contents channels id (kind id)))
    (hloops : g.Loops room n (Channel.level channels)) :
    P (act.exec node n channels).1 ∧ ∃ d, ∃ id ∈ g.edgesAt d n, id ∉ g.edgesAt d.flip n ∧
      Channel.level (act.exec node n channels).2 id = Channel.level channels id := by
  obtain ⟨d, id, hid, hmissing⟩ :=
    hg.exists_not_suffices hnode hnot fun id hid ↦ (hgiven id hid).1
  obtain ⟨hP, d, id, hid, hone, hsame⟩ := h.exec_refused hrefused hfit
    (fun d slot id hslot ↦ hg.lt_of_edgeAt hnode hslot)
    (fun d slot slot' id hslot hslot' ↦ hg.slot_unique hnode hslot hslot')
    (hg.nodup_inputEdges hnode) (hg.nodup_outputEdges hnode)
    (hg.exposed_of_loops hnode hgiven hloops)
    ⟨d, id, pending_edges hnode d ▸ hid, hmissing⟩ n
  rw [pending_edges hnode] at hid
  refine ⟨hP, d, id, hid, fun hflip ↦ ?_, hsame⟩
  obtain ⟨slot, hslot⟩ := exists_edgeAt_of_mem hnode hflip
  exact hone slot hslot

/-- A port that has not been served is noticed after the run. -/
theorem Coherent.not_ratesHonored (hg : g.Coherent) (hv : g.Valid) {channels' : List (Channel κ)}
    {d : Direction} {id : EdgeId} (hid : id ∈ g.edgesAt d n) (hone : id ∉ g.edgesAt d.flip n)
    (hsame : Channel.level channels' id = Channel.level channels id) :
    ¬ g.ratesHonored n .success (channels.map Channel.available)
      (channels'.map Channel.available) := by
  intro hhonored
  have hchange := hg.ratesHonored_success_iff.mp hhonored d id hid
  rw [hsame] at hchange
  obtain ⟨e, he, -⟩ := hg.mem_edgesAt.mp hid
  have hpos := hv.rateAt_pos hg he d
  have hmoved : g.moved d n id = e.rateAt d := by
    rw [hg.moved_of_mem hid, rateAt, he]
    rfl
  have hnone : g.moved d.flip n id = 0 := hg.moved_of_not_mem hone
  cases d with
  | input =>
    change g.moved .output n id = 0 at hnone
    omega
  | output =>
    change g.moved .input n id = 0 at hnone
    omega

/-- Where the rates have been moved, the guard was satisfied. -/
theorem Coherent.guarded_of_ratesHonored (hg : g.Coherent) (act : Activity κ α)
    (hfit : Channel.Fit kind room g.edges.length channels)
    (hloops : g.Loops room n (Channel.level channels))
    (h : g.ratesHonored n .success (channels.map Channel.available)
      ((act.exec node n channels).2.map Channel.available)) :
    g.Guarded room n (Channel.level channels) := by
  have hchange := hg.ratesHonored_success_iff.mp h
  rw [hg.guarded_iff]
  constructor
  · intro id
    by_cases hin : id ∈ g.edgesAt .input n
    · by_cases hout : id ∈ g.edgesAt .output n
      · rw [hg.moved_of_mem hin]
        exact hloops.input hin hout
      · have hgiven := hchange .input id hin
        rw [hg.moved_of_not_mem hout] at hgiven
        omega
    · rw [hg.moved_of_not_mem hin]
      exact Nat.zero_le _
  · intro id
    by_cases hout : id ∈ g.edgesAt .output n
    · by_cases hin : id ∈ g.edgesAt .input n
      · have hroom := hloops.output hin hout
        rw [hg.moved_of_mem hout]
        omega
      · have hgiven := hchange .output id hout
        have hroom := (fit_exec (n := n) hfit node act).level_le (hg.lt_of_mem_edgesAt hout)
        rw [hg.moved_of_not_mem hin] at hgiven
        omega
    · rw [hg.moved_of_not_mem hout]
      exact Nat.zero_le _

end Graph

namespace Plan.Sound

variable {p : Plan} {n : NodeId} {level : Levels}

theorem loops (h : p.Sound) (hlevel : p.graph.LoopsKept level) : p.graph.Loops p.room n level := by
  have hedge {id : EdgeId} (hin : id ∈ p.graph.edgesAt .input n)
      (hout : id ∈ p.graph.edgesAt .output n) : ∃ e, p.graph.edges[id]? = some e ∧
        level id = p.graph.delay id ∧ e.rateAt .input ≤ p.graph.delay id ∧
          p.graph.delay id + e.rateAt .output ≤ p.room id := by
    obtain ⟨e, he, htarget⟩ := h.coherent.mem_edgesAt.mp hin
    obtain ⟨e', he', hsource⟩ := h.coherent.mem_edgesAt.mp hout
    cases Option.some.inj (he.symm.trans he')
    have hloop : e.source.node = e.target.node := hsource.trans htarget.symm
    obtain ⟨-, hinput, houtput⟩ := h.loop he hloop
    exact ⟨e, he, hlevel id e he hloop, hinput, houtput⟩
  have hrate {id : EdgeId} {e : Edge} (he : p.graph.edges[id]? = some e) (d : Direction) :
      p.graph.rateAt d id = e.rateAt d := by
    rw [Graph.rateAt, he]
    rfl
  refine ⟨fun hin hout ↦ ?_, fun hin hout ↦ ?_⟩
  · obtain ⟨e, he, hdelay, hinput, -⟩ := hedge hin hout
    rw [hrate he, hdelay]
    exact hinput
  · obtain ⟨e, he, hdelay, -, houtput⟩ := hedge hin hout
    rw [hrate he, hdelay]
    exact houtput

theorem loopsKept_after (h : p.Sound) (hlevel : p.graph.LoopsKept level) (n : NodeId) :
    p.graph.LoopsKept (p.graph.after n level) := by
  intro id e he hloop
  obtain ⟨hsame, hinput, -⟩ := h.loop he hloop
  have hdelay := hlevel id e he hloop
  have hmoved : p.graph.moved .output n id = p.graph.moved .input n id := by
    rw [Graph.moved_of_getElem? he, Graph.moved_of_getElem? he, Edge.moved, Edge.moved, Edge.portAt,
      Edge.portAt, hloop, hsame]
  calc
    p.graph.after n level id =
        level id + p.graph.moved .input n id - p.graph.moved .input n id := by
      rw [Graph.after, hmoved]
    _ = level id := Nat.add_sub_cancel _ _
    _ = p.graph.delay id := hdelay

theorem loopsKept_run (h : p.Sound) (hlevel : p.graph.LoopsKept level) (w : List NodeId) :
    p.graph.LoopsKept (Steps.run p.graph.after w level) := by
  induction w generalizing level with
  | nil => exact hlevel
  | cons n w ih => exact ih (h.loopsKept_after hlevel n)

end Plan.Sound

end Dataflow
