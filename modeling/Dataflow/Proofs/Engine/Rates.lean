import Dataflow.Proofs.Engine.Atomicity
import Dataflow.Proofs.Engine.Refusal

/-!
# What the check of the rates tells

After a run the levels of the queues at a node are compared with those before. What the calls of a run
have moved over an edge shows in its level when the node has the edge on one side, so there the check is
exact. Of an edge from a node to itself it only tells that as many elements were added as taken, however
many.
-/

namespace Dataflow

variable {κ : Type} [ElementKind κ] {σ ω α : Type}

/-- What a firing with this status owes to a port with this rate. -/
def RunStatus.due : RunStatus → Nat → Nat
  | .success, rate => rate
  | .skip, _ => 0

/-- The rate that is declared for a port. -/
def Node.portRate (n : Node) (d : Direction) (slot : Nat) : Nat :=
  ((n.sockets d)[slot]?.map (·.port.rate.toNat)).getD 0

instance (op : PortOp κ) (d : Direction) (slot : Nat) : Decidable (op.Names d slot) :=
  decidable_of_iff _ PortOp.names_iff.symm

namespace PortCall

/-- The elements that a call in node `n` has moved over a port. -/
def carried (n : Node) (d : Direction) (slot : Nat) (c : PortCall κ) : Nat :=
  if c.answer.isOk ∧ c.op.Names d slot then n.portRate d slot else 0

/-- The elements that a call in node `n` has moved over side `d` of an edge. -/
def passed (g : Graph) (n : Node) (d : Direction) (id : EdgeId) (c : PortCall κ) : Nat :=
  if c.answer.isOk ∧ ∃ u ∈ c.op.uses, u.direction = d ∧ u.edge? n = some id then g.rateAt d id else 0

/-- The elements that calls have moved over a port in all. -/
def total (n : Node) (d : Direction) (slot : Nat) (calls : List (PortCall κ)) : Nat :=
  (calls.map (carried n d slot)).sum

end PortCall

/-! ## Levels along calls -/

namespace Channel

variable {g : Graph} {before after : List (Channel κ)} {id : EdgeId}

theorem Moved.level_input (h : Moved g before after .input id) :
    level after id + g.rateAt .input id = level before id := by
  obtain ⟨k, q, q', hbefore, hafter, henough, hcontents⟩ := h
  have hlength := congrArg List.length hcontents
  rw [List.length_drop, Fifo.length_contents, Fifo.length_contents] at hlength
  rw [level_of_getElem? hbefore, level_of_getElem? hafter]
  change q'.size + g.consumption id = q.size
  omega

theorem Moved.level_output (h : Moved g before after .output id) :
    level after id = level before id + g.rateAt .output id := by
  obtain ⟨k, q, q', hbefore, hafter, -, values, hvalues, hcontents⟩ := h
  have hlength := congrArg List.length hcontents
  rw [List.length_append, Fifo.length_contents, Fifo.length_contents, hvalues] at hlength
  rw [level_of_getElem? hbefore, level_of_getElem? hafter]
  exact hlength

end Channel

namespace PortCall

variable {g : Graph} {n : NodeId} {node : Node}

/-- What a call has moved over the two sides of an edge is the change of its level. -/
theorem Atomic.level {c : PortCall κ} (h : c.Atomic g node) (id : EdgeId) :
    Channel.level c.after id + c.passed g node .input id =
      Channel.level c.before id + c.passed g node .output id := by
  cases hanswer : c.answer with
  | error e =>
    simp only [passed, hanswer, h.unchanged hanswer, Except.isOk, Except.toBool, Bool.false_eq_true,
      false_and, if_false]
  | ok answer =>
    have hmoves := h.moves hanswer
    have hmoved {d : Direction} (hu : ∃ u ∈ c.op.uses, u.direction = d ∧ u.edge? node = some id) :
        Channel.Moved g c.before c.after d id := by
      obtain ⟨u, hu, rfl, hedge⟩ := hu
      exact hmoves.moved (PortOp.names_iff.mpr ⟨u, hu, rfl, rfl⟩) hedge
    simp only [passed, hanswer, Except.isOk, Except.toBool, true_and]
    split
    · rename_i hin
      have hinput := (hmoved hin).level_input
      split
      · rename_i hout
        have houtput := (hmoved hout).level_output
        omega
      · exact hinput
    · rename_i hin
      split
      · rename_i hout
        exact (hmoved hout).level_output
      · rename_i hout
        refine congrArg (· + 0) (Channel.level_congr (hmoves.altered.others id ?_))
        rintro ⟨d, slot, hnames, hedge⟩
        obtain ⟨u, hu, rfl, rfl⟩ := PortOp.names_iff.mp hnames
        cases hd : u.direction with
        | input => exact hin ⟨u, hu, hd, hedge⟩
        | output => exact hout ⟨u, hu, hd, hedge⟩

theorem Chain.level {before after : List (Channel κ)} {calls : List (PortCall κ)}
    (hchain : Chain before calls after) (hatomic : ∀ c ∈ calls, c.Atomic g node) (id : EdgeId) :
    Channel.level after id + (calls.map (passed g node .input id)).sum =
      Channel.level before id + (calls.map (passed g node .output id)).sum := by
  induction calls generalizing before with
  | nil =>
    cases hchain
    rfl
  | cons c calls ih =>
    obtain ⟨rfl, hchain⟩ := hchain
    have hfirst := (hatomic c List.mem_cons_self).level id
    have hrest := ih hchain fun c hc ↦ hatomic c (List.mem_cons_of_mem _ hc)
    simp only [List.map_cons, List.sum_cons]
    omega

theorem rateAt_eq_portRate (hg : g.Coherent) (hnode : g.nodes[n]? = some node) {d : Direction}
    {slot : Nat} {id : EdgeId} (hedge : node.edgeAt d slot = some id) :
    g.rateAt d id = node.portRate d slot := by
  obtain ⟨⟨port, edge⟩, hs, hsocket⟩ := Option.bind_eq_some_iff.mp hedge
  cases hsocket
  rw [Node.portRate, hs]
  exact (hg.rate_of_getElem? hnode hs).2.symm

/-- What moves over a port moves over its side of the edge. -/
theorem passed_eq_carried (hg : g.Coherent) (hnode : g.nodes[n]? = some node) {d : Direction}
    {slot : Nat} {id : EdgeId} (hedge : node.edgeAt d slot = some id) (c : PortCall κ) :
    c.passed g node d id = c.carried node d slot := by
  have hrate := rateAt_eq_portRate hg hnode hedge
  have hsame (u : PortUse κ) :
      u.direction = d ∧ u.edge? node = some id ↔ u.direction = d ∧ u.slot = slot := by
    constructor
    · rintro ⟨rfl, hu⟩
      exact ⟨rfl, hg.slot_unique hnode hedge hu⟩
    · rintro ⟨rfl, rfl⟩
      exact ⟨rfl, hedge⟩
  simp only [passed, carried, PortOp.names_iff, hsame, hrate]

/-- Nothing moves over the side of an edge where it is at another node. -/
theorem passed_eq_zero {d : Direction} {id : EdgeId} (hnone : ∀ slot, node.edgeAt d slot ≠ some id)
    (c : PortCall κ) : c.passed g node d id = 0 := by
  refine if_neg ?_
  rintro ⟨-, u, -, rfl, hu⟩
  exact hnone u.slot hu

/-- What calls have moved over one side of an edge, and what a success owes there. -/
theorem side_of_edgeAt (hg : g.Coherent) (hnode : g.nodes[n]? = some node) (calls : List (PortCall κ))
    {d : Direction} {slot : Nat} {id : EdgeId} (hedge : node.edgeAt d slot = some id) :
    (calls.map (passed g node d id)).sum = total node d slot calls ∧
      g.moved d n id = node.portRate d slot := by
  rw [total, funext (passed_eq_carried hg hnode hedge),
    hg.moved_of_mem (Graph.mem_edgesAt_of_edgeAt hnode hedge), rateAt_eq_portRate hg hnode hedge]
  exact ⟨rfl, rfl⟩

theorem side_of_forall_ne (hg : g.Coherent) (hnode : g.nodes[n]? = some node)
    (calls : List (PortCall κ)) {d : Direction} {id : EdgeId}
    (hnone : ∀ slot, node.edgeAt d slot ≠ some id) :
    (calls.map (passed g node d id)).sum = 0 ∧ g.moved d n id = 0 := by
  refine ⟨?_, hg.moved_of_not_mem fun hmem ↦ ?_⟩
  · rw [funext (passed_eq_zero (g := g) hnone)]
    simp
  · obtain ⟨slot, hedge⟩ := Graph.exists_edgeAt_of_mem hnode hmem
    exact hnone slot hedge

end PortCall

/-! ## The check -/

/-- What the check of a status asks of the calls of a run: over a port whose edge the node has on this side
only, what the status owes; over the two ends of an edge from the node to itself, the same. -/
structure PortCall.Honored (n : Node) (status : RunStatus) (calls : List (PortCall κ)) : Prop where
  single {d : Direction} {slot : Nat} {id : EdgeId} (edge : n.edgeAt d slot = some id)
    (one : ∀ slot', n.edgeAt d.flip slot' ≠ some id) :
    PortCall.total n d slot calls = status.due (n.portRate d slot)
  loop {slot slot' : Nat} {id : EdgeId} (input : n.edgeAt .input slot = some id)
    (output : n.edgeAt .output slot' = some id) :
    PortCall.total n .input slot calls = PortCall.total n .output slot' calls

/-- Every port has moved what the status owes to it. -/
def PortCall.Exact (n : Node) (status : RunStatus) (calls : List (PortCall κ)) : Prop :=
  ∀ d slot id, n.edgeAt d slot = some id →
    PortCall.total n d slot calls = status.due (n.portRate d slot)

namespace Graph

variable {g : Graph} {n : NodeId} {node : Node} {channels channels' : List (Channel κ)}

theorem Coherent.ratesHonored_iff (hg : g.Coherent) (status : RunStatus) :
    g.ratesHonored n status (channels.map Channel.available) (channels'.map Channel.available) ↔
      ∀ d, ∀ id ∈ g.edgesAt d n,
        Channel.level channels' id + status.due (g.moved .input n id) =
          Channel.level channels id + status.due (g.moved .output n id) := by
  cases status with
  | success => exact hg.ratesHonored_success_iff
  | skip =>
    have hchange (id : EdgeId) : (g.edges[id]?.map (·.change n .skip)).getD 0 = 0 := by
      cases g.edges[id]? <;> rfl
    simp only [ratesHonored, List.all_eq_true, List.mem_append, decide_eq_true_eq,
      getD_map_available, hchange, RunStatus.due, Nat.add_zero]
    constructor
    · intro h d id hid
      have heq := h id (by cases d; exacts [.inl hid, .inr hid])
      omega
    · rintro h id (hid | hid)
      · have heq := h .input id hid
        omega
      · have heq := h .output id hid
        omega

end Graph

/-- The two rates of an edge from a node to itself are the same. -/
theorem Plan.Sound.portRate_loop {p : Plan} (h : p.Sound) {n : NodeId} {node : Node}
    (hnode : p.graph.nodes[n]? = some node) {slot slot' : Nat} {id : EdgeId}
    (hin : node.edgeAt .input slot = some id) (hout : node.edgeAt .output slot' = some id) :
    node.portRate .input slot = node.portRate .output slot' := by
  obtain ⟨e, he, htarget⟩ := h.coherent.mem_edgesAt.mp (Graph.mem_edgesAt_of_edgeAt hnode hin)
  obtain ⟨e', he', hsource⟩ := h.coherent.mem_edgesAt.mp (Graph.mem_edgesAt_of_edgeAt hnode hout)
  cases Option.some.inj (he.symm.trans he')
  have hrates := (h.loop he (hsource.trans htarget.symm)).1
  rw [← PortCall.rateAt_eq_portRate h.coherent hnode hin,
    ← PortCall.rateAt_eq_portRate h.coherent hnode hout]
  simp only [Graph.rateAt, he, Option.map_some, Option.getD_some]
  exact hrates.symm

@[simp]
theorem RunStatus.due_zero (status : RunStatus) : status.due 0 = 0 := by cases status <;> rfl

namespace PortCall

/-- What calls of node `n` have moved over the two sides of an edge, set against what the status owes
there: what the check compares once the levels before the run are taken away. -/
def Settles (g : Graph) (n : NodeId) (node : Node) (status : RunStatus) (calls : List (PortCall κ))
    (id : EdgeId) : Prop :=
  (calls.map (passed g node .input id)).sum + status.due (g.moved .output n id) =
    (calls.map (passed g node .output id)).sum + status.due (g.moved .input n id)

theorem Chain.settles_iff {g : Graph} {n : NodeId} {node : Node} {before after : List (Channel κ)}
    {calls : List (PortCall κ)} (hchain : Chain before calls after)
    (hatomic : ∀ c ∈ calls, c.Atomic g node) (status : RunStatus) (id : EdgeId) :
    Channel.level after id + status.due (g.moved .input n id) =
        Channel.level before id + status.due (g.moved .output n id) ↔
      Settles g n node status calls id := by
  have hlevel := hchain.level hatomic id
  rw [Settles]
  omega

theorem settles_iff_of_single {g : Graph} (hg : g.Coherent) {n : NodeId} {node : Node}
    (hnode : g.nodes[n]? = some node) (status : RunStatus) (calls : List (PortCall κ)) {d : Direction}
    {slot : Nat} {id : EdgeId} (hedge : node.edgeAt d slot = some id)
    (hone : ∀ slot', node.edgeAt d.flip slot' ≠ some id) :
    Settles g n node status calls id ↔ total node d slot calls = status.due (node.portRate d slot) := by
  obtain ⟨hmoved, howed⟩ := side_of_edgeAt hg hnode calls hedge
  obtain ⟨hmoved', howed'⟩ := side_of_forall_ne hg hnode calls hone
  cases d with
  | input =>
    rw [Direction.flip] at hmoved' howed'
    rw [Settles, hmoved, howed, hmoved', howed', RunStatus.due_zero, Nat.add_zero, Nat.zero_add]
  | output =>
    rw [Direction.flip] at hmoved' howed'
    rw [Settles, hmoved, howed, hmoved', howed', RunStatus.due_zero, Nat.add_zero, Nat.zero_add,
      eq_comm]

end PortCall

theorem Plan.Sound.settles_iff_of_loop {p : Plan} (h : p.Sound) {n : NodeId} {node : Node}
    (hnode : p.graph.nodes[n]? = some node) (status : RunStatus) (calls : List (PortCall κ))
    {slot slot' : Nat} {id : EdgeId} (hin : node.edgeAt .input slot = some id)
    (hout : node.edgeAt .output slot' = some id) :
    PortCall.Settles p.graph n node status calls id ↔
      PortCall.total node .input slot calls = PortCall.total node .output slot' calls := by
  obtain ⟨htaken, hconsumed⟩ := PortCall.side_of_edgeAt h.coherent hnode calls hin
  obtain ⟨hadded, hproduced⟩ := PortCall.side_of_edgeAt h.coherent hnode calls hout
  rw [PortCall.Settles, htaken, hconsumed, hadded, hproduced, h.portRate_loop hnode hin hout,
    Nat.add_right_cancel_iff]

/-- What the levels tell about calls. -/
theorem Plan.Sound.ratesHonored_iff {p : Plan} (h : p.Sound) {n : NodeId} {node : Node}
    (hnode : p.graph.nodes[n]? = some node) {channels channels' : List (Channel κ)}
    {calls : List (PortCall κ)} (hchain : PortCall.Chain channels calls channels')
    (hatomic : ∀ c ∈ calls, c.Atomic p.graph node) (status : RunStatus) :
    p.graph.ratesHonored n status (channels.map Channel.available)
        (channels'.map Channel.available) ↔ PortCall.Honored node status calls := by
  simp only [h.coherent.ratesHonored_iff, hchain.settles_iff hatomic]
  constructor
  · intro hsettles
    refine ⟨fun {d slot id} hedge hone ↦ ?_, fun {slot slot' id} hin hout ↦ ?_⟩
    · exact (PortCall.settles_iff_of_single h.coherent hnode status calls hedge hone).mp
        (hsettles d id (Graph.mem_edgesAt_of_edgeAt hnode hedge))
    · exact (h.settles_iff_of_loop hnode status calls hin hout).mp
        (hsettles .input id (Graph.mem_edgesAt_of_edgeAt hnode hin))
  · intro honored d id hid
    obtain ⟨slot, hedge⟩ := Graph.exists_edgeAt_of_mem hnode hid
    by_cases hback : ∃ slot', node.edgeAt d.flip slot' = some id
    · obtain ⟨slot', hback⟩ := hback
      cases d with
      | input =>
        exact (h.settles_iff_of_loop hnode status calls hedge hback).mpr (honored.loop hedge hback)
      | output =>
        exact (h.settles_iff_of_loop hnode status calls hback hedge).mpr (honored.loop hback hedge)
    · have hone : ∀ slot', node.edgeAt d.flip slot' ≠ some id := not_exists.mp hback
      exact (PortCall.settles_iff_of_single h.coherent hnode status calls hedge hone).mpr
        (honored.single hedge hone)

/-! ## Firings -/

namespace Plan.Sound

variable {p : Plan} {n : NodeId} {node : Node} {calls : List (PortCall κ)} {status : RunStatus}

/-- To move what is owed over every port is enough for the check. -/
theorem honored_of_exact (h : p.Sound) (hnode : p.graph.nodes[n]? = some node)
    (hexact : PortCall.Exact node status calls) : PortCall.Honored node status calls where
  single hedge _ := hexact _ _ _ hedge
  loop hin hout := by
    rw [hexact _ _ _ hin, hexact _ _ _ hout, h.portRate_loop hnode hin hout]

end Plan.Sound

/-- Without an edge from the node to itself it is what the check asks. -/
theorem PortCall.Honored.exact {node : Node} {calls : List (PortCall κ)} {status : RunStatus}
    (h : PortCall.Honored node status calls)
    (hloops : ∀ id slot slot', node.edgeAt .input slot = some id →
      node.edgeAt .output slot' ≠ some id) : PortCall.Exact node status calls := by
  intro d slot id hedge
  refine h.single hedge fun slot' hslot' ↦ ?_
  cases d with
  | input => exact hloops id slot slot' hedge hslot'
  | output => exact hloops id slot' slot hslot' hedge

namespace Session

theorem fire_of_attempt_eq_error {s : Session κ σ ω} {n : NodeId} {persist : Bool} {e : NodeError}
    (h : (s.attempt n persist).1 = .error e) : (s.fire n persist).1 =
      .error ⟨e.code, n, (s.engine.plan.diagnosticCode? n).getD 0, e.isFatal⟩ := by
  have hplan : (s.attempt n persist).2.engine.plan = s.engine.plan :=
    plan_of_frame (s.local_attempt n persist).frame
  rcases s.fire_cases n persist with ⟨status, hstatus, -⟩ | ⟨e', he, hfire⟩
  · rw [h] at hstatus
    cases hstatus
  · cases h.symm.trans he
    rw [hfire, ← hplan]
    rfl

/-- An attempt of a node that can resume ends as its run, as far as the rates allow. -/
theorem attempt_of_run {s t : Session κ σ ω} {n : NodeId} {persist : Bool}
    (hresume : s.resume n persist = (.ok (), t)) {i : Instance κ σ ω} {node : Node}
    (hi : t.engine.nodes[n]? = some i) (hnode : s.engine.plan.graph.nodes[n]? = some node)
    {status : RunStatus} {channels : List (Channel κ)}
    (hchannels : ((i.behaviour.run (i.memory, t.world)).exec node n s.engine.channels).2 = channels)
    (hrun : ((i.behaviour.run (i.memory, t.world)).exec node n s.engine.channels).1.1 = .ok status) :
    (s.attempt n persist).1 =
      if s.engine.plan.graph.ratesHonored n status (s.engine.channels.map Channel.available)
        (channels.map Channel.available) then .ok status
      else .error .rateMismatch := by
  have ht : (s.resume n persist).2 = t := congrArg Prod.snd hresume
  have hplan : t.engine.plan = s.engine.plan :=
    plan_of_frame (ht ▸ (s.local_resume n persist).frame)
  have hqueues : t.engine.channels = s.engine.channels := ht ▸ s.channels_resume n persist
  have hattempt : (s.attempt n persist).1 = (t.execute n).1 := by
    rw [attempt_of_resume (congrArg Prod.fst hresume), ht]
    rfl
  rw [hattempt, execute_eq hi (hplan ▸ hnode)]
  simp only [outcomeOf, verdict, levels, hqueues, hplan, hrun, hchannels]

/-- A run that ends well in a session of a compiled graph has its status reported exactly when its calls
have moved what the status owes over every port whose edge leads to another node, and as much out as in
over every edge that leads back. If not, the firing fails with a recoverable mismatch of the rates. So
to move what is owed over every port is enough, and without an edge that leads back it is necessary. -/
theorem fire_reports_status_iff {g : Graph} (hb : g.Built) {o : CompileOptions} {s : Session κ σ ω}
    (hp : g.compile o = .ok s.engine.plan) (hlength : s.engine.channels.length = g.edges.length)
    {n : NodeId} {node : Node} (hnode : g.nodes[n]? = some node) {persist : Bool} {t : Session κ σ ω}
    (hresume : s.resume n persist = (.ok (), t)) {i : Instance κ σ ω}
    (hi : t.engine.nodes[n]? = some i) {status : RunStatus}
    (hrun : ((i.behaviour.run (i.memory, t.world)).exec node n s.engine.channels).1.1 = .ok status) :
    let calls := (i.behaviour.run (i.memory, t.world)).portCalls g node n s.engine.channels
    ((s.fire n persist).1 = .ok status ↔ PortCall.Honored node status calls) ∧
      (¬ PortCall.Honored node status calls →
        (s.fire n persist).1 = .error ⟨.rateMismatch, n, node.code, false⟩) ∧
      (PortCall.Exact node status calls → (s.fire n persist).1 = .ok status) ∧
      ((∀ id slot slot', node.edgeAt .input slot = some id → node.edgeAt .output slot' ≠ some id) →
        ((s.fire n persist).1 = .ok status ↔ PortCall.Exact node status calls)) := by
  intro calls
  obtain ⟨-, -, -, -, hgraph, -⟩ := Graph.exists_of_compile hp
  have hsound := (Graph.sound_of_compile hb.coherent hp).1
  subst hgraph
  obtain ⟨hchain, hatomic⟩ := Graph.portCalls_atomic hb hp hnode hlength
    (i.behaviour.run (i.memory, t.world))
  have hcheck := hsound.ratesHonored_iff hnode hchain hatomic status
  have hattempt := attempt_of_run hresume hi hnode rfl hrun
  have hfails (h : ¬ PortCall.Honored node status calls) :
      (s.fire n persist).1 = .error ⟨.rateMismatch, n, node.code, false⟩ := by
    rw [if_neg fun honored ↦ h (hcheck.mp honored)] at hattempt
    rw [fire_of_attempt_eq_error hattempt, Plan.diagnosticCode?, hnode]
    rfl
  have hreports : (s.fire n persist).1 = .ok status ↔ PortCall.Honored node status calls := by
    refine ⟨fun hfire ↦ ?_, fun h ↦ ?_⟩
    · by_contra h
      rw [hfails h] at hfire
      cases hfire
    · rw [if_pos (hcheck.mpr h)] at hattempt
      rw [fire_of_ok hattempt]
  refine ⟨hreports, hfails, fun h ↦ hreports.mpr (hsound.honored_of_exact hnode h), fun hloops ↦ ?_⟩
  exact ⟨fun h ↦ (hreports.mp h).exact hloops,
    fun h ↦ hreports.mpr (hsound.honored_of_exact hnode h)⟩

end Session

namespace Looped

/-- Node `b` when it does nothing and calls that a success. -/
def idle : Behaviour Scalar UInt8 Unit where
  run := fun s ↦ .done (.ok .success, s)

/-- Node `a` when it feeds the other node and leaves its loop alone. -/
def lopsided : Behaviour Scalar UInt8 Unit where
  run := fun s ↦ .call (.push .u8 0 [s.1, s.1, s.1]) fun _ ↦ .done (.ok .success, s)

/-- Node `a` when it passes a token round its loop and calls that nothing. -/
def whirling : Behaviour Scalar UInt8 Unit where
  run := fun s ↦
    .call (.pop .u8 0 1) fun taken ↦
      .call (.push .u8 1 [mix s.1 taken]) fun _ ↦ .done (.ok .skip, s)

/-- The two nodes behave in this way. -/
def callsWith (a b : Behaviour Scalar UInt8 Unit) : List (Bind Scalar UInt8 Unit) :=
  [.fifo 1 .u8, .node 1 ⟨b, 0⟩, .node 0 ⟨a, 0⟩, .fifo 0 .u8]

end Looped

namespace Session

/-- A node without a loop is found out. -/
theorem fire_idle : ∃ e w,
    (Binding.ofCalls (Looped.plan .static [7, 2]) 0
        (Looped.callsWith Looped.feeder Looped.idle)).build Looped.world = (.ok e, w) ∧
      ((Session.mk e (.new none) w).fire 1 false).1 = .error ⟨.rateMismatch, 1, 1, false⟩ := by
  obtain ⟨e, w, hbuild⟩ : ∃ e w, (Binding.ofCalls (Looped.plan .static [7, 2]) 0
      (Looped.callsWith Looped.feeder Looped.idle)).build Looped.world = (.ok e, w) := ⟨_, _, rfl⟩
  have hplan : e.plan = Looped.plan .static [7, 2] := by
    cases hbuild
    rfl
  have hlength : e.channels.length = Looped.graph.edges.length := by
    cases hbuild
    rfl
  have hnode : e.nodes[1]? = some ⟨Looped.idle, 0⟩ := by
    cases hbuild
    rfl
  obtain ⟨-, hfails, -, -⟩ := fire_reports_status_iff (s := ⟨e, .new none, w⟩) Looped.built_graph
    (hplan ▸ Looped.compile_graph) hlength (rfl : Looped.graph.nodes[1]? = some Looped.sink)
    (rfl : (Session.mk e (.new none) w).resume 1 false = _) hnode rfl
  refine ⟨e, w, hbuild, hfails fun h ↦ ?_⟩
  have hnone : ∀ slot, Looped.sink.edgeAt .output slot = none := fun _ ↦ rfl
  have htotal : 0 = 2 := h.exact (fun id slot slot' _ ↦ by simp [hnone]) .input 0 0 rfl
  cases htotal

/-- A success without a token over the loop passes the check, and so does a token over the loop in a run
that is said to have moved nothing. -/
theorem loop_escapes_check :
    (∃ e w, (Binding.ofCalls (Looped.plan .static [7, 2]) 0
        (Looped.callsWith Looped.lopsided Looped.taker)).build Looped.world = (.ok e, w) ∧
      ((Session.mk e (.new none) w).fire 0 false).1 = .ok .success ∧
      ¬ PortCall.Exact Looped.source .success
        ((Looped.lopsided.run (0, w)).portCalls Looped.graph Looped.source 0 e.channels)) ∧
    ∃ e w, (Binding.ofCalls (Looped.plan .static [7, 2]) 0
        (Looped.callsWith Looped.whirling Looped.taker)).build Looped.world = (.ok e, w) ∧
      ((Session.mk e (.new none) w).fire 0 false).1 = .ok .skip ∧
      ¬ PortCall.Exact Looped.source .skip
        ((Looped.whirling.run (0, w)).portCalls Looped.graph Looped.source 0 e.channels) := by
  refine ⟨⟨_, _, rfl, by decide +kernel, fun hexact ↦ ?_⟩,
    _, _, rfl, by decide +kernel, fun hexact ↦ ?_⟩
  · exact absurd (hexact .input 0 1 rfl) (by decide +kernel)
  · exact absurd (hexact .input 0 1 rfl) (by decide +kernel)

end Session

end Dataflow
