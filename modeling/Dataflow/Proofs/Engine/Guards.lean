import Dataflow.Proofs.Engine.Rates

/-!
# Guards and slots

A guard is made of the edges of a node before there are queues. Whether a node is ready is asked at its slots
instead: from a slot to its edge, and from there to the queue and the rate. Both come to the same. They also
promise enough: what is done at one port never stands against what is still to be done at another, not even
where the two ports are the two ends of one edge, so a ready node can use its ports in any order.
-/

namespace Dataflow

variable {κ : Type} [ElementKind κ] {σ ω : Type}

namespace Channel

/-- What a port on this side can use: elements at an input, free places at an output. -/
def measure (c : Channel κ) : Direction → Nat
  | .input => c.available
  | .output => c.free

/-- What the queue of an edge offers to the port on its side `d`. -/
def amount (channels : List (Channel κ)) (d : Direction) (id : EdgeId) : Nat :=
  (channels[id]?.map (·.measure d)).getD 0

variable {g : Graph} {kind : EdgeId → κ} {room : Levels} {before after : List (Channel κ)} {d : Direction}
  {id : EdgeId}

theorem amount_congr (h : after[id]? = before[id]?) (d : Direction) :
    amount after d id = amount before d id := by
  rw [amount, amount, h]

/-- What moves over one side of an edge takes nothing away from the other. -/
theorem Moved.amount_flip_le (h : Moved g before after d id)
    (hbefore : Fit kind room g.edges.length before) (hafter : Fit kind room g.edges.length after)
    (hid : id < g.edges.length) : amount before d.flip id ≤ amount after d.flip id := by
  cases d with
  | input =>
    have hlevel := h.level_input
    have hfree : amount before .output id = room id - level before id := Graph.free_eq_of_fit hbefore hid
    have hfree' : amount after .output id = room id - level after id := Graph.free_eq_of_fit hafter hid
    change amount before .output id ≤ amount after .output id
    omega
  | output =>
    have hlevel := h.level_output
    change level before id ≤ level after id
    omega

end Channel

/-! ## Slots -/

namespace Graph

variable (g : Graph) (n : Node) (channels : List (Channel κ)) (d : Direction)

/-- There is less than the rate at this slot, or no edge. -/
def slotIsShort (slot : Nat) : Bool :=
  match g.access n d slot with
  | .ok (id, rate) => Channel.amount channels d id < rate
  | .error _ => true

def sideIsReady : Bool :=
  (List.range (n.sockets d).length).all fun slot ↦ !g.slotIsShort n channels d slot

/-- Asks at one slot after the other. -/
def nodeIsReady : Bool := g.sideIsReady n channels .input && g.sideIsReady n channels .output

variable {g d} {n : NodeId} {node : Node} {channels} {kind : EdgeId → κ} {room : Levels}

theorem slotIsShort_of_edgeAt {slot : Nat} {id : EdgeId} (h : node.edgeAt d slot = some id) :
    g.slotIsShort node channels d slot = decide (Channel.amount channels d id < g.rateAt d id) := by
  rw [slotIsShort, access_eq_ok_iff.mpr ⟨h, rfl⟩]

/-- No slot is short when the edges on this side offer their rates. -/
theorem Coherent.sideIsReady_iff (hg : g.Coherent) (hv : g.Valid) (hnode : g.nodes[n]? = some node) :
    g.sideIsReady node channels d ↔
      ∀ id ∈ g.edgesAt d n, g.rateAt d id ≤ Channel.amount channels d id := by
  simp only [sideIsReady, List.all_eq_true, List.mem_range, Bool.not_eq_true']
  constructor
  · intro h id hid
    obtain ⟨slot, hslot⟩ := exists_edgeAt_of_mem hnode hid
    obtain ⟨s, hs, -⟩ := Option.bind_eq_some_iff.mp hslot
    have hlong := h slot (List.getElem?_eq_some_iff.mp hs).1
    rw [slotIsShort_of_edgeAt hslot] at hlong
    exact Nat.not_lt.mp (of_decide_eq_false hlong)
  · intro h slot hlt
    obtain ⟨id, hid, hedge, -⟩ := hg.exists_of_mem_sockets hv hnode (List.getElem_mem hlt)
    have hslot : node.edgeAt d slot = some id := by
      rw [Node.edgeAt, List.getElem?_eq_getElem hlt, Option.bind_some, hedge]
    rw [slotIsShort_of_edgeAt hslot]
    exact decide_eq_false (Nat.not_lt.mpr (h id hid))

/-- To ask at the slots is to evaluate the guard. -/
theorem Coherent.nodeIsReady_eq (hg : g.Coherent) (channels : List (Channel κ)) (hv : g.Valid)
    (hnode : g.nodes[n]? = some node) :
    g.nodeIsReady node channels =
      (g.guard n).isSatisfied (Channel.amount channels .input) (Channel.amount channels .output) := by
  rw [Bool.eq_iff_iff, nodeIsReady, Bool.and_eq_true, hg.sideIsReady_iff hv hnode,
    hg.sideIsReady_iff hv hnode, hg.isSatisfied_guard_iff, hg.all_rates_iff, hg.all_rates_iff]

/-- A node that looks at all its ports at once is ready when it is by its slots. -/
theorem Coherent.readiness_view_eq (hg : g.Coherent) (hv : g.Valid) (hnode : g.nodes[n]? = some node)
    (hlength : channels.length = g.edges.length) :
    (node.view n channels).readiness = if g.nodeIsReady node channels then .proceed else .skip := by
  have hin := hg.forall_isShort_iff hv hnode hlength .input Channel.available
  have hout := hg.forall_isShort_iff hv hnode hlength .output Channel.free
  have hinputs : (node.view n channels).inputsReady = g.sideIsReady node channels .input := by
    rw [Bool.eq_iff_iff, hg.sideIsReady_iff hv hnode]
    refine Iff.trans ?_ hin
    simp [PortView.inputsReady, Node.view, Node.sockets]
  have houtputs : (node.view n channels).outputsReady = g.sideIsReady node channels .output := by
    rw [Bool.eq_iff_iff, hg.sideIsReady_iff hv hnode]
    refine Iff.trans ?_ hout
    simp [PortView.outputsReady, Node.view, Node.sockets]
  rw [PortView.readiness, hinputs, houtputs, nodeIsReady]

end Graph

/-! ## Operations at one port each -/

namespace PortOp

/-- The ports that an operation names. -/
def ports (op : PortOp κ) : List (Direction × Nat) := op.uses.map fun u ↦ (u.direction, u.slot)

/-- The operation is about one port of the node only, whose edge is `id`, and it is given the kind and the
rate of that edge. -/
structure ServesAt (g : Graph) (n : Node) (kind : EdgeId → κ) (op : PortOp κ) (d : Direction) (slot : Nat)
    (id : EdgeId) : Prop where
  edge : n.edgeAt d slot = some id
  uses : op.uses = [⟨d, slot, kind id⟩]
  length : ∀ l ∈ op.length?, l = g.rateAt d id

/-- The operation takes what a firing takes at one input, or adds what a firing adds at one output. -/
def Serves (g : Graph) (n : Node) (kind : EdgeId → κ) (op : PortOp κ) : Prop :=
  ∃ d slot id, op.ServesAt g n kind d slot id

variable {g : Graph} {n : NodeId} {node : Node} {kind : EdgeId → κ} {room : Levels}
  {channels before after : List (Channel κ)} {op op' : PortOp κ} {d d' : Direction} {slot slot' : Nat}
  {id id' : EdgeId}

theorem serves_pop (kind : EdgeId → κ) (h : node.edgeAt .input slot = some id) :
    (pop (kind id) slot (g.consumption id)).Serves g node kind :=
  ⟨.input, slot, id, h, rfl, fun _ hl ↦ (Option.some.inj hl).symm⟩

theorem serves_push (kind : EdgeId → κ) (h : node.edgeAt .output slot = some id)
    {values : List (ElementKind.Carrier (kind id))} (hlength : values.length = g.production id) :
    (push (kind id) slot values).Serves g node kind :=
  ⟨.output, slot, id, h, rfl, fun _ hl ↦ (Option.some.inj hl).symm.trans hlength⟩

theorem ServesAt.edge_eq_of_names (h : op.ServesAt g node kind d slot id) (hnames : op.Names d' slot')
    (hedge : node.edgeAt d' slot' = some id') : id' = id := by
  obtain ⟨u, hu, rfl, rfl⟩ := names_iff.mp hnames
  rw [h.uses, List.mem_singleton] at hu
  subst hu
  exact Option.some.inj (hedge.symm.trans h.edge)

theorem ServesAt.names (h : op.ServesAt g node kind d slot id) : op.Names d slot :=
  names_iff.mpr ⟨_, h.uses ▸ List.mem_singleton_self _, rfl, rfl⟩

/-- Only its queue can stand against such an operation. -/
theorem ServesAt.fault?_eq_none_iff (h : op.ServesAt g node kind d slot id)
    (hfit : Channel.Fit kind room g.edges.length channels) (hid : id < g.edges.length) :
    op.fault? g node channels = none ↔ g.rateAt d id ≤ Channel.amount channels d id := by
  obtain ⟨q, hc, -⟩ := hfit.exists_queue hid
  have hlength : ¬ op.length?.any (· ≠ g.rateAt d id) := by
    cases hl : op.length? with
    | none => simp
    | some l => simp [h.length l hl]
  have hfault : op.fault? g node channels = _ :=
    fault?_of_uses_eq_singleton (u := ⟨d, slot, kind id⟩) h.uses h.edge
  rw [hfault, if_neg hlength, hc, Option.bind_some, Channel.queue?_mk, Channel.amount, hc]
  cases d with
  | input => simp [Fifo.shortage?, Fifo.willUnderflow, Channel.measure, Channel.available]
  | output => simp [Fifo.shortage?, Fifo.willOverflow, Channel.measure, Channel.free]

/-- An operation at one port leaves what an operation at another port needs. -/
theorem ServesAt.fault?_of_moves (hg : g.Coherent) (hnode : g.nodes[n]? = some node)
    (h : op.ServesAt g node kind d slot id) (h' : op'.ServesAt g node kind d' slot' id')
    (hne : (d, slot) ≠ (d', slot')) (hfit : Channel.Fit kind room g.edges.length before)
    (hmoves : op.Moves g node before after) (hnone : op'.fault? g node before = none) :
    op'.fault? g node after = none := by
  have hid' := hg.lt_of_edgeAt hnode h'.edge
  have hafter := hfit.of_shape_eq hmoves.altered.shape
  rw [h'.fault?_eq_none_iff hfit hid'] at hnone
  rw [h'.fault?_eq_none_iff hafter hid']
  refine hnone.trans ?_
  by_cases heq : id' = id
  · subst heq
    -- An edge has one port on each side, so it must be the other side of this one.
    have hd : d' ≠ d := by
      rintro rfl
      exact hne (Prod.ext rfl (hg.slot_unique hnode h'.edge h.edge))
    rw [Direction.eq_flip_of_ne hd]
    exact (hmoves.moved h.names h.edge).amount_flip_le hfit hafter hid'
  · refine (Channel.amount_congr (hmoves.altered.others id' ?_) d').ge
    rintro ⟨d₀, slot₀, hnames, hedge⟩
    exact heq (h.edge_eq_of_names hnames hedge)

end PortOp

/-- Calls the operations one after another, whatever is answered. -/
def Activity.inOrder : List (PortOp κ) → Activity κ Unit
  | [] => .done ()
  | op :: ops => .call op fun _ ↦ inOrder ops

namespace Activity

variable {g : Graph} {n : NodeId} {node : Node} {kind : EdgeId → κ} {room : Levels}
  {channels : List (Channel κ)} {ops : List (PortOp κ)}

theorem map_op_portCalls_inOrder (g : Graph) (node : Node) (n : NodeId) (ops : List (PortOp κ))
    (channels : List (Channel κ)) : ((inOrder ops).portCalls g node n channels).map (·.op) = ops := by
  induction ops generalizing channels with
  | nil => rfl
  | cons op ops ih => exact congrArg (op :: ·) (ih _)

/-- If nothing stands against any of the operations at first, and they are at different ports, nothing
will. -/
theorem answers_inOrder (hg : g.Coherent) (hnode : g.nodes[n]? = some node)
    (hfit : Channel.Fit kind room g.edges.length channels) (hserves : ∀ op ∈ ops, op.Serves g node kind)
    (hports : (ops.flatMap PortOp.ports).Nodup) (hnone : ∀ op ∈ ops, op.fault? g node channels = none) :
    ∀ c ∈ (inOrder ops).portCalls g node n channels, ∃ answer, c.answer = .ok answer := by
  induction ops generalizing channels with
  | nil => exact fun c hc ↦ absurd hc List.not_mem_nil
  | cons op ops ih =>
    obtain ⟨⟨d, slot, id, hop⟩, hserves⟩ := List.forall_mem_cons.mp hserves
    obtain ⟨hopnone, hrest⟩ := List.forall_mem_cons.mp hnone
    rw [List.flatMap_cons] at hports
    have hothers := List.disjoint_of_nodup_append hports
    rcases op.carryOut_cases hg hnode hfit.length_eq with ⟨r, -, hcarry, -, hmoves⟩ | ⟨e, -, -, hfault⟩
    · have hanswer : (PortCall.of g node channels op).answer = .ok r.answer := congrArg Prod.fst hcarry
      have hafter : (op.carryOut g node channels).2 = r.commit := congrArg Prod.snd hcarry
      refine List.forall_mem_cons.mpr ⟨⟨r.answer, hanswer⟩, ?_⟩
      rw [hafter]
      refine ih (hfit.of_shape_eq hmoves.altered.shape) hserves hports.of_append_right fun op' hop' ↦ ?_
      obtain ⟨d', slot', id', hserves'⟩ := hserves op' hop'
      refine hop.fault?_of_moves hg hnode hserves' (fun heq ↦ ?_) hfit hmoves (hrest op' hop')
      have hmem : (d, slot) ∈ op.ports := by simp [PortOp.ports, hop.uses]
      have hmem' : (d', slot') ∈ op'.ports := by simp [PortOp.ports, hserves'.uses]
      exact hothers hmem (List.mem_flatMap.mpr ⟨op', hop', heq ▸ hmem'⟩)
    · rw [hopnone] at hfault
      cases hfault

end Activity

/-! ## Guards of a plan -/

/-- In a compiled graph, whatever the queues hold, a node that leaves the question to its ports is ready when
its guard is satisfied by the elements and free places there are, and its slots say the same. Then it may use
each port once, in any order: every operation of the activity succeeds. -/
theorem Graph.prepare_eq_guard {g : Graph} (hb : g.Built) {o : CompileOptions} {p : Plan}
    (hp : g.compile o = .ok p) {kind : EdgeId → κ} {channels : List (Channel κ)}
    (hfit : Channel.Fit kind p.room p.graph.edges.length channels) {n : NodeId} {node : Node}
    (hnode : p.graph.nodes[n]? = some node) :
    ∃ guard, p.graph.guardSet.guards[n]? = some guard ∧ guard.node = n ∧
      let satisfied := guard.isSatisfied (Channel.amount channels .input) (Channel.amount channels .output)
      p.graph.nodeIsReady node channels = satisfied ∧
      (∀ (run : StateT (σ × World ω) (Activity κ) (Except NodeError RunStatus)) (s : σ × World ω),
        ({ run := run } : Behaviour κ σ ω).prepare (node.view n channels) s =
          (if satisfied then .proceed else .skip, s)) ∧
      (satisfied → ∀ ops : List (PortOp κ), (∀ op ∈ ops, op.Serves p.graph node kind) →
        (ops.flatMap PortOp.ports).Nodup →
        let calls := (Activity.inOrder ops).portCalls p.graph node n channels
        calls.map (·.op) = ops ∧
          PortCall.Chain channels calls ((Activity.inOrder ops).exec node n channels).2 ∧
          ∀ c ∈ calls, Reservation.settle c.before (c.op.reserve node c.before) = (c.answer, c.after) ∧
            ∃ answer, c.answer = .ok answer) := by
  have hsound := (sound_of_compile hb.coherent hp).1
  have hg := hsound.coherent
  have hlt : n < p.graph.nodes.length := (List.getElem?_eq_some_iff.mp hnode).1
  have hslots := hg.nodeIsReady_eq channels hsound.valid hnode
  have hguard : p.graph.guardSet.guards[n]? = some (p.graph.guard n) := by
    rw [guardSet, List.getElem?_map, List.getElem?_range hlt, Option.map_some]
  refine ⟨p.graph.guard n, hguard, rfl, hslots, fun run s ↦ ?_, fun hsatisfied ops hserves hports ↦ ?_⟩
  · change ((node.view n channels).readiness, s) = _
    rw [hg.readiness_view_eq hsound.valid hnode hfit.length_eq, hslots]
  · have hsettle := (Activity.inOrder ops).settle_of_mem_portCalls hg hnode hfit.length_eq
    refine ⟨Activity.map_op_portCalls_inOrder _ _ _ _ _,
      ((Activity.inOrder ops).chain_portCalls hg hnode hfit.length_eq).1, fun c hc ↦ ⟨hsettle c hc, ?_⟩⟩
    refine Activity.answers_inOrder hg hnode hfit hserves hports (fun op hop ↦ ?_) c hc
    obtain ⟨d, slot, id, hserves⟩ := hserves op hop
    rw [hserves.fault?_eq_none_iff hfit (hg.lt_of_edgeAt hnode hserves.edge)]
    rw [hg.isSatisfied_guard_iff, ← hg.all_rates_iff, ← hg.all_rates_iff] at hsatisfied
    have hmem := mem_edgesAt_of_edgeAt hnode hserves.edge
    cases d with
    | input => exact hsatisfied.1 id hmem
    | output => exact hsatisfied.2 id hmem

namespace Looped

/-- Node `a` passes its token on before it takes it, and feeds node `b` in between. -/
def hasty : List (PortOp Scalar) :=
  [.push .u8 1 [(5 : UInt8)], .push .u8 0 [(1 : UInt8), (2 : UInt8), (3 : UInt8)], .pop .u8 0 1]

theorem serves_hasty : ∀ op ∈ hasty, op.Serves graph source kind := by
  have hpush {slot : Nat} (id : EdgeId) (h : source.edgeAt .output slot = some id) {values : List UInt8}
      (hlength : values.length = graph.production id) :
      (PortOp.push Scalar.u8 slot values).Serves graph source kind :=
    PortOp.serves_push kind h hlength
  have hpop : (PortOp.pop Scalar.u8 0 1).Serves graph source kind :=
    PortOp.serves_pop (g := graph) kind (rfl : source.edgeAt .input 0 = some 1)
  intro op hop
  simp only [hasty, List.mem_cons, List.not_mem_nil, or_false] at hop
  rcases hop with rfl | rfl | rfl
  · exact hpush 1 rfl rfl
  · exact hpush 0 rfl rfl
  · exact hpop

/-- The loop has one token and one free place, so the other end of it can wait. -/
theorem answers_hasty : ∃ e w,
    (Binding.ofCalls (plan .static [7, 2]) 0 calls).build world = (.ok e, w) ∧
      e.channels.map (fun c ↦ (c.measure .input, c.measure .output)) = [(1, 6), (1, 1)] ∧
      graph.nodeIsReady source e.channels ∧
      PortCall.Chain e.channels ((Activity.inOrder hasty).portCalls graph source 0 e.channels)
        ((Activity.inOrder hasty).exec source 0 e.channels).2 ∧
      (∀ c ∈ (Activity.inOrder hasty).portCalls graph source 0 e.channels,
        ∃ answer, c.answer = .ok answer) ∧
      ((Activity.inOrder hasty).exec source 0 e.channels).2.map
        (fun c ↦ (c.measure .input, c.measure .output)) = [(4, 3), (1, 1)] := by
  obtain ⟨e, w, hbuild⟩ : ∃ e w,
      (Binding.ofCalls (plan .static [7, 2]) 0 calls).build world = (.ok e, w) := ⟨_, _, rfl⟩
  have hfit : Channel.Fit kind (plan .static [7, 2]).room graph.edges.length e.channels := by
    cases hbuild
    rfl
  have hready : graph.nodeIsReady source e.channels := by
    cases hbuild
    decide
  obtain ⟨guard, -, -, hguard, -, horder⟩ := Graph.prepare_eq_guard (σ := UInt8) (ω := Unit) built_graph
    compile_graph hfit (rfl : graph.nodes[0]? = some source)
  obtain ⟨-, hchain, hanswers⟩ := horder (hguard ▸ hready) hasty serves_hasty (by decide)
  refine ⟨e, w, hbuild, ?_, hready, hchain, fun c hc ↦ (hanswers c hc).2, ?_⟩
  · cases hbuild
    rfl
  · cases hbuild
    decide +kernel

end Looped

end Dataflow
