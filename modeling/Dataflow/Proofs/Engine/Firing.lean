import Dataflow.Proofs.Engine.Frame
import Dataflow.Proofs.Schedule.Plan

/-!
# Firings in the engine of a plan

The queues of an engine have the capacities of its plan. A node that leaves the question whether it is
ready to its ports is ready exactly when its guard is satisfied. What a successful firing does to the
levels is then what the graph says, and the rest of the engine stays: other nodes keep their memories
and their parked states.
-/

namespace Dataflow

variable {κ : Type} [ElementKind κ] {σ ω α : Type}

/-! ## Ports and edges -/

namespace Graph

variable {g : Graph} {n : NodeId} {node : Node} {kind : EdgeId → κ} {room : Levels}
  {channels channels' : List (Channel κ)}

/-- The rate at a port is the rate of its edge. -/
theorem Coherent.rate_of_getElem? (hg : g.Coherent) (hnode : g.nodes[n]? = some node)
    {d : Direction} {slot : Nat} {port : Port} {id : EdgeId}
    (h : (node.sockets d)[slot]? = some ⟨port, some id⟩) :
    id ∈ g.edgesAt d n ∧ port.rate.toNat = g.rateAt d id := by
  have hin := (socketIn_of_getElem? hnode d slot).trans h
  obtain ⟨e, he, hport⟩ := hg.bound hin
  obtain ⟨-, port', hrate, hsocket⟩ := hg.ends he d
  rw [← hport, hin] at hsocket
  cases hsocket
  refine ⟨hg.mem_edgesAt.mpr ⟨e, he, congrArg PortRef.node hport.symm⟩, ?_⟩
  rw [hrate, rateAt, he]
  rfl

theorem mem_edgesAt_of_edgeAt (hnode : g.nodes[n]? = some node) {d : Direction} {slot : Nat}
    {id : EdgeId} (h : node.edgeAt d slot = some id) : id ∈ g.edgesAt d n := by
  obtain ⟨s, hs, hedge⟩ := Option.bind_eq_some_iff.mp h
  rw [edgesAt_of_getElem? hnode, List.mem_filterMap]
  exact ⟨s, List.mem_of_getElem? hs, hedge⟩

/-- In a valid graph every port has an edge. -/
theorem Coherent.exists_of_mem_sockets (hg : g.Coherent) (hv : g.Valid)
    (hnode : g.nodes[n]? = some node) {d : Direction} {s : Socket} (hs : s ∈ node.sockets d) :
    ∃ id ∈ g.edgesAt d n, s.edge = some id ∧ s.port.rate.toNat = g.rateAt d id := by
  obtain ⟨slot, hslot⟩ := List.mem_iff_getElem?.mp hs
  obtain ⟨id, hid⟩ :=
    Option.isSome_iff_exists.mp (hv.socket ((socketIn_of_getElem? hnode d slot).trans hslot)).2
  obtain ⟨port, edge⟩ := s
  cases hid
  obtain ⟨hmem, hrate⟩ := hg.rate_of_getElem? hnode hslot
  exact ⟨id, hmem, rfl, hrate⟩

/-! ## Readiness -/

/-- The ports on one side are not short when the edges there have their rates. -/
theorem Coherent.forall_isShort_iff (hg : g.Coherent) (hv : g.Valid)
    (hnode : g.nodes[n]? = some node) (hlength : channels.length = g.edges.length) (d : Direction)
    (measure : Channel κ → Nat) :
    (∀ s ∈ node.sockets d, PortLevel.isShort
        ⟨s.port.rate.toNat, s.edge.bind fun id ↦ channels[id]?.map measure⟩ = false) ↔
      ∀ id ∈ g.edgesAt d n, g.rateAt d id ≤ (channels[id]?.map measure).getD 0 := by
  have hsocket {s : Socket} {id : EdgeId} (hedge : s.edge = some id)
      (hrate : s.port.rate.toNat = g.rateAt d id) (hid : id ∈ g.edgesAt d n) :
      PortLevel.isShort ⟨s.port.rate.toNat, s.edge.bind fun id ↦ channels[id]?.map measure⟩ = false ↔
        g.rateAt d id ≤ (channels[id]?.map measure).getD 0 := by
    have hlt : id < channels.length := hlength ▸ hg.lt_of_mem_edgesAt hid
    simp [PortLevel.isShort, hedge, hrate, List.getElem?_eq_getElem hlt]
  constructor
  · intro h id hid
    obtain ⟨s, hs, hedge⟩ := List.mem_filterMap.mp (edgesAt_of_getElem? hnode d ▸ hid)
    obtain ⟨id', -, hedge', hrate⟩ := hg.exists_of_mem_sockets hv hnode hs
    cases Option.some.inj (hedge.symm.trans hedge')
    exact (hsocket hedge hrate hid).mp (h s hs)
  · intro h s hs
    obtain ⟨id, hid, hedge, hrate⟩ := hg.exists_of_mem_sockets hv hnode hs
    exact (hsocket hedge hrate hid).mpr (h id hid)

theorem free_eq_of_fit (hfit : Channel.Fit kind room g.edges.length channels) {id : EdgeId}
    (hid : id < g.edges.length) :
    (channels[id]?.map Channel.free).getD 0 = room id - Channel.level channels id := by
  obtain ⟨q, hc, hcapacity⟩ := hfit.exists_queue hid
  rw [Channel.level_of_getElem? hc, hc, ← hcapacity]
  rfl

/-- What a node sees at its ports makes it ready exactly when its guard is satisfied. -/
theorem Coherent.readiness_view_iff (hg : g.Coherent) (hv : g.Valid)
    (hnode : g.nodes[n]? = some node) (hfit : Channel.Fit kind room g.edges.length channels) :
    (node.view n channels).readiness = .proceed ↔ g.Guarded room n (Channel.level channels) := by
  have hview : (node.view n channels).readiness = .proceed ↔
      (node.view n channels).inputsReady ∧ (node.view n channels).outputsReady := by
    rw [PortView.readiness, ← Bool.and_eq_true]
    split <;> simp_all
  have hin := hg.forall_isShort_iff hv hnode hfit.length_eq .input Channel.available
  have hout := hg.forall_isShort_iff hv hnode hfit.length_eq .output Channel.free
  have houtputs : (∀ id ∈ g.edgesAt .output n,
        g.rateAt .output id ≤ (channels[id]?.map Channel.free).getD 0) ↔
      ∀ id ∈ g.edgesAt .output n, g.rateAt .output id ≤ room id - Channel.level channels id :=
    forall₂_congr fun id hid ↦ by rw [free_eq_of_fit hfit (hg.lt_of_mem_edgesAt hid)]
  rw [hview, hg.guarded_iff, Fed, ← hg.all_rates_iff, ← hg.all_rates_iff]
  refine and_congr (Iff.trans ?_ hin) (Iff.trans ?_ (hout.trans houtputs))
  · simp [PortView.inputsReady, Node.view, Node.sockets]
  · simp [PortView.outputsReady, Node.view, Node.sockets]

/-! ## Moved rates -/

theorem getD_map_available (channels : List (Channel κ)) (id : EdgeId) :
    (channels.map Channel.available)[id]?.getD 0 = Channel.level channels id := by
  rw [List.getElem?_map]
  rfl

/-- The check after a successful run asks for the change that the graph tells. -/
theorem Coherent.ratesHonored_success_iff (hg : g.Coherent) :
    g.ratesHonored n .success (channels.map Channel.available) (channels'.map Channel.available) ↔
      ∀ d, ∀ id ∈ g.edgesAt d n, Channel.level channels' id + g.moved .input n id =
        Channel.level channels id + g.moved .output n id := by
  have hchange {id : EdgeId} {e : Edge} (he : g.edges[id]? = some e) :
      (g.edges[id]?.map (·.change n .success)).getD 0 =
        (g.moved .output n id : Int) - (g.moved .input n id : Int) := by
    rw [moved_of_getElem? he, moved_of_getElem? he, he]
    simp only [Option.map_some, Option.getD_some, Edge.change, Edge.moved, Edge.portAt, Edge.rateAt]
    by_cases hsource : e.source.node = n <;> by_cases htarget : e.target.node = n <;>
      simp [hsource, htarget]
  have hedge {d : Direction} {id : EdgeId} (hid : id ∈ g.edgesAt d n) :
      ((Channel.level channels' id : Int) - (Channel.level channels id : Int) =
          (g.edges[id]?.map (·.change n .success)).getD 0 ↔
        Channel.level channels' id + g.moved .input n id =
          Channel.level channels id + g.moved .output n id) := by
    obtain ⟨e, he, -⟩ := hg.mem_edgesAt.mp hid
    rw [hchange he]
    omega
  simp only [ratesHonored, List.all_eq_true, List.mem_append, decide_eq_true_eq, getD_map_available]
  constructor
  · intro h d id hid
    refine (hedge hid).mp (h id ?_)
    cases d with
    | input => exact .inl hid
    | output => exact .inr hid
  · rintro h id (hid | hid)
    · exact (hedge (d := .input) hid).mpr (h .input id hid)
    · exact (hedge (d := .output) hid).mpr (h .output id hid)

/-- A node does not reach the queues of other nodes. -/
theorem level_exec_of_forall_not_mem (hnode : g.nodes[n]? = some node) {id : EdgeId}
    (hid : ∀ d, id ∉ g.edgesAt d n) (act : Activity κ α) (channels : List (Channel κ)) :
    Channel.level (act.exec node n channels).2 id = Channel.level channels id := by
  have havoids : act.Avoids node id := act.avoids_of_forall_ne fun d slot hslot ↦
    hid d (mem_edgesAt_of_edgeAt hnode hslot)
  exact Channel.level_congr ((Activity.altered_of_exec node n act channels).others id fun h ↦ h havoids)

/-- An activity of node `n` passes the check when it leaves the levels that the graph tells. -/
theorem Coherent.ratesHonored_exec_iff (hg : g.Coherent) (hnode : g.nodes[n]? = some node)
    (act : Activity κ α) (hfed : g.Fed n (Channel.level channels)) :
    g.ratesHonored n .success (channels.map Channel.available)
        ((act.exec node n channels).2.map Channel.available) ↔
      Channel.level (act.exec node n channels).2 = g.after n (Channel.level channels) := by
  rw [hg.ratesHonored_success_iff]
  constructor
  · intro h
    funext id
    by_cases hid : ∃ d, id ∈ g.edgesAt d n
    · obtain ⟨d, hid⟩ := hid
      have heq := h d id hid
      rw [after]
      omega
    · rw [not_exists] at hid
      rw [level_exec_of_forall_not_mem hnode hid, hg.after_of_forall_not_mem hid]
  · intro h d id hid
    have hfed' := hfed id
    rw [h, after]
    omega

end Graph

/-! ## Engines of a plan -/

/-- The frame of an engine of its plan: it has the nodes of the graph and queues with the capacities of
the plan. -/
structure Frame.Planned (f : Frame κ σ ω) (kind : EdgeId → κ) : Prop where
  sound : f.plan.Sound
  length : f.behaviours.length = f.plan.graph.nodes.length
  shape : f.shape = (List.range f.plan.graph.edges.length).map fun id ↦ (kind id, f.plan.room id)

/-- The nodes are ready when their ports are. -/
structure Frame.Proper (f : Frame κ σ ω) (kind : EdgeId → κ) : Prop extends f.Planned kind where
  prepare (b : Behaviour κ σ ω) (h : b ∈ f.behaviours) (v : PortView) : b.prepare v = pure v.readiness

/-- As node `n` of the plan the behaviour moves its rates and succeeds when its guard is satisfied. -/
def Behaviour.Moves (b : Behaviour κ σ ω) (p : Plan) (kind : EdgeId → κ) (n : NodeId) : Prop :=
  ∀ node, p.graph.nodes[n]? = some node → ∀ (memory : σ) (world : World ω)
    (channels : List (Channel κ)), Channel.Fit kind p.room p.graph.edges.length channels →
    p.graph.Guarded p.room n (Channel.level channels) →
    ((b.run (memory, world)).exec node n channels).1.1 = .ok .success ∧
      Channel.level ((b.run (memory, world)).exec node n channels).2 =
        p.graph.after n (Channel.level channels)

/-- Every node moves its rates. -/
def Frame.Moves (f : Frame κ σ ω) (kind : EdgeId → κ) : Prop :=
  ∀ (n : NodeId) (b : Behaviour κ σ ω), f.behaviours[n]? = some b → b.Moves f.plan kind n

namespace Session

variable {s t : Session κ σ ω} {kind : EdgeId → κ} {n : NodeId}

/-- The number of elements on each edge. -/
def level (s : Session κ σ ω) : Levels := Channel.level s.engine.channels

/-- Node `n` finds its elements and its room. -/
def Ready (s : Session κ σ ω) (n : NodeId) : Prop :=
  s.engine.plan.graph.Ready s.engine.plan.room n s.level

theorem behaviours_of_getElem? {i : Instance κ σ ω} (h : s.engine.nodes[n]? = some i) :
    s.frame.behaviours[n]? = some i.behaviour := by
  simp [frame, Engine.frame, h]

theorem exists_instance (hf : s.frame.Planned kind) (hn : n < s.engine.plan.graph.nodes.length) :
    ∃ i node, s.engine.nodes[n]? = some i ∧ s.engine.plan.graph.nodes[n]? = some node := by
  have hlength : s.engine.nodes.length = s.engine.plan.graph.nodes.length := by
    simpa [frame, Engine.frame] using hf.length
  exact ⟨_, _, List.getElem?_eq_getElem (hlength ▸ hn), List.getElem?_eq_getElem hn⟩

theorem putMemory_self {i : Instance κ σ ω} (h : s.engine.nodes[n]? = some i) :
    s.putMemory n i.memory = s := by
  have hnodes : s.engine.nodes.modify n ({ · with memory := i.memory }) = s.engine.nodes := by
    apply List.ext_getElem?
    intro m
    rw [List.getElem?_modify]
    by_cases hm : n = m
    · subst hm
      simp [h]
    · simp [hm]
  rw [putMemory, hnodes]

/-- To ask a node changes nothing, and the answer is whether its guard is satisfied. -/
theorem readiness_eq (hf : s.frame.Proper kind) (n : NodeId) :
    s.readiness n = (.proceed, s) ∧ s.Ready n ∨ s.readiness n = (.skip, s) ∧ ¬ s.Ready n := by
  by_cases hn : n < s.engine.plan.graph.nodes.length
  · obtain ⟨i, node, hi, hnode⟩ := exists_instance hf.toPlanned hn
    have hprepare := hf.prepare i.behaviour (List.mem_of_getElem? (behaviours_of_getElem? hi))
      (node.view n s.engine.channels)
    have hready : s.readiness n = ((node.view n s.engine.channels).readiness, s) := by
      simp only [readiness, callNode, hnode, hi, hprepare]
      exact congrArg _ (putMemory_self hi)
    have hview := hf.sound.coherent.readiness_view_iff hf.sound.valid hnode hf.shape
    rw [hready]
    unfold PortView.readiness at hview ⊢
    split
    · rename_i htrue
      exact .inl ⟨rfl, hn, hview.mp (if_pos htrue)⟩
    · rename_i hfalse
      refine .inr ⟨rfl, fun h ↦ hfalse ?_⟩
      have hproceed := hview.mpr h.2
      by_contra hno
      rw [if_neg hno] at hproceed
      cases hproceed
  · have hnone : s.readiness n = (.skip, s) := by
      simp only [readiness, List.getElem?_eq_none (Nat.le_of_not_lt hn)]
    exact .inr ⟨hnone, fun h ↦ hn h.1⟩

/-- A node that has moved its rates and says so has run well. -/
theorem execute_of_moved (hf : s.frame.Planned kind) (hready : s.Ready n) {i : Instance κ σ ω}
    {node : Node} (hi : s.engine.nodes[n]? = some i) (hnode : s.engine.plan.graph.nodes[n]? = some node)
    (hresult : (s.outcomeOf n i node).1.1 = .ok .success)
    (hlevel : Channel.level (s.outcomeOf n i node).2 = s.engine.plan.graph.after n s.level) :
    (s.execute n).1 = .ok .success ∧
      (s.execute n).2.level = s.engine.plan.graph.after n s.level := by
  rw [execute_eq hi hnode]
  refine ⟨?_, hlevel⟩
  have hhonored := (hf.sound.coherent.ratesHonored_exec_iff hnode
    (i.behaviour.run (i.memory, s.world)) (hready.2.fed hf.sound.coherent)).mpr hlevel
  simp only [verdict, hresult]
  exact if_pos hhonored

/-- A ready node that moves its rates runs well. -/
theorem execute_of_ready (hf : s.frame.Proper kind) (hmoves : s.frame.Moves kind)
    (hready : s.Ready n) :
    (s.execute n).1 = .ok .success ∧
      (s.execute n).2.level = s.engine.plan.graph.after n s.level := by
  obtain ⟨i, node, hi, hnode⟩ := exists_instance hf.toPlanned hready.1
  obtain ⟨hresult, hlevel⟩ := hmoves n i.behaviour (behaviours_of_getElem? hi) node hnode i.memory
    s.world s.engine.channels hf.shape hready.2
  exact execute_of_moved hf.toPlanned hready hi hnode hresult hlevel

theorem channels_callNode (s : Session κ σ ω) (n : NodeId) (absent : α)
    (callback : Behaviour κ σ ω → Callback σ ω α) :
    (s.callNode n absent callback).2.engine.channels = s.engine.channels := by
  unfold callNode
  split <;> rfl

theorem channels_restoreParked (s : Session κ σ ω) (n : NodeId) :
    (s.restoreParked n).2.engine.channels = s.engine.channels :=
  restoreParked_induction (P := fun t ↦ t.engine.channels = s.engine.channels) rfl
    (fun _ ↦ channels_callNode (s.modifyContext (·.unpark n)) n _ _) fun _ _ h ↦ h

theorem channels_resume (s : Session κ σ ω) (n : NodeId) (persist : Bool) :
    (s.resume n persist).2.engine.channels = s.engine.channels := by
  unfold resume
  split
  · exact channels_restoreParked _ n
  · rfl

theorem channels_savePark (s : Session κ σ ω) (n : NodeId) :
    (s.savePark n).engine.channels = s.engine.channels :=
  savePark_induction (P := fun t ↦ t.engine.channels = s.engine.channels) (channels_callNode s n _ _)
    fun _ _ h ↦ h

theorem channels_perform (s : Session κ σ ω) (n : NodeId) (persist : Bool) :
    (s.perform n persist).2.engine.channels = (s.execute n).2.engine.channels := by
  unfold perform
  split
  · exact channels_savePark _ n
  · rfl

/-- A firing of a ready node succeeds when the node takes its state back and moves its rates. -/
theorem fire_of_ready (hf : s.frame.Proper kind) (hmoves : s.frame.Moves kind)
    (hready : s.Ready n) {persist : Bool} (hresume : (s.resume n persist).1 = .ok ()) :
    s.fire n persist = (.ok .success, (s.attempt n persist).2.note n (.ok .success)) ∧
      (s.attempt n persist).2.level = s.engine.plan.graph.after n s.level := by
  have hattempt := attempt_of_resume hresume
  have hlocal := s.local_resume n persist
  have hsame := s.channels_resume n persist
  obtain ⟨t, ht⟩ : ∃ t, (s.resume n persist).2 = t := ⟨_, rfl⟩
  rw [ht] at hattempt hlocal hsame
  have hplan : t.engine.plan = s.engine.plan := plan_of_frame hlocal.frame
  have hlevel : t.level = s.level := congrArg Channel.level hsame
  have hready' : t.Ready n := by
    rw [Ready, hplan, hlevel]
    exact hready
  obtain ⟨hresult, hafter⟩ :=
    execute_of_ready (hlocal.frame ▸ hf) (hlocal.frame ▸ hmoves) hready'
  have hsuccess : (s.attempt n persist).1 = .ok .success := by
    rw [hattempt]
    exact hresult
  refine ⟨fire_of_ok hsuccess, ?_⟩
  calc
    (s.attempt n persist).2.level = (t.perform n persist).2.level := by rw [hattempt]
    _ = (t.execute n).2.level := congrArg Channel.level (channels_perform t n persist)
    _ = s.engine.plan.graph.after n s.level := by rw [hafter, hplan, hlevel]

end Session

end Dataflow
