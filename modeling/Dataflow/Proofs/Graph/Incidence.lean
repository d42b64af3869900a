import Dataflow.Graph.Validity

/-!
# Incidence of nodes and edges

A graph that was made by `addNode` and `connect` tells its incidence relation twice: an edge names its
two ports, and the socket of a port names its edge. Both sides agree, so the edges at the inputs of a
node are those with this node as target, each once, and likewise for outputs and sources.
-/

namespace Dataflow.Graph

/-- Graphs that `addNode` and `connect` make. -/
inductive Built : Graph → Prop where
  | empty : Built .empty
  | addNode {g : Graph} (h : Built g) (s : NodeSpec) : Built (g.addNode s).2
  | connect {g g' : Graph} {source target : PortRef} {delay : UInt32} {id : EdgeId} (h : Built g)
      (step : g.connect source target delay = .ok (id, g')) : Built g'

theorem of_getElem?_concat {α : Type} {l : List α} {a b : α} {i : Nat} (h : (l ++ [a])[i]? = some b) :
    l[i]? = some b ∨ i = l.length ∧ a = b := by
  rcases Nat.lt_trichotomy i l.length with hlt | heq | hgt
  · exact .inl ((List.getElem?_append_left hlt).symm.trans h)
  · rw [heq, List.getElem?_concat_length] at h
    exact .inr ⟨heq, Option.some.inj h⟩
  · rw [List.getElem?_eq_none (by simp; omega)] at h
    cases h

/-! ## Sockets by port -/

def socketIn (nodes : List Node) (p : PortRef) : Option Socket :=
  nodes[p.node]?.bind fun n ↦ (n.sockets p.direction)[p.slot]?

theorem socketIn_of_getElem? {nodes : List Node} {n : NodeId} {node : Node}
    (h : nodes[n]? = some node) (d : Direction) (slot : Nat) :
    socketIn nodes ⟨n, d, slot⟩ = (node.sockets d)[slot]? := by
  simp [socketIn, h]

theorem exists_of_socketIn_eq_some {nodes : List Node} {p : PortRef} {s : Socket}
    (h : socketIn nodes p = some s) :
    ∃ node, nodes[p.node]? = some node ∧ (node.sockets p.direction)[p.slot]? = some s := by
  simpa only [socketIn, Option.bind_eq_some_iff] using h

theorem socketAt_eq_ok_iff {g : Graph} {p : PortRef} {s : Socket} :
    g.socketAt p = .ok s ↔ socketIn g.nodes p = some s := by
  unfold socketAt socketIn
  cases g.nodes[p.node]? with
  | none => simp
  | some n =>
    cases hs : (n.sockets p.direction)[p.slot]? with
    | none => simp [hs]
    | some s' => simp [hs]

theorem getElem?_sockets_attach (n : Node) (d d' : Direction) (slot slot' : Nat) (id : EdgeId) :
    ((n.attach d slot id).sockets d')[slot']? =
      if d' = d ∧ slot' = slot then (n.sockets d)[slot]?.map ({ · with edge := some id })
      else (n.sockets d')[slot']? := by
  cases d <;> cases d' <;> simp only [Node.attach, Node.sockets, reduceCtorEq, false_and, if_false,
    true_and]
  all_goals
    rw [List.getElem?_modify]
    by_cases h : slot = slot'
    · subst h
      simp
    · rw [if_neg (fun heq ↦ h heq.symm)]
      simp [h]

/-- Binding an edge changes the socket of its port and no other. -/
theorem socketIn_attach (nodes : List Node) (p q : PortRef) (id : EdgeId) :
    socketIn (attach nodes p id) q =
      if q = p then (socketIn nodes p).map ({ · with edge := some id }) else socketIn nodes q := by
  obtain ⟨pn, pd, ps⟩ := p
  obtain ⟨qn, qd, qs⟩ := q
  simp only [socketIn, attach, List.getElem?_modify, PortRef.mk.injEq]
  by_cases hn : pn = qn
  · subst hn
    cases nodes[pn]? with
    | none => simp
    | some node =>
      simpa using getElem?_sockets_attach node pd qd ps qs id
  · rw [if_neg (fun h ↦ hn h.1.symm)]
    simp [hn]

/-- The sockets of a new node are free, and those of the others stay. -/
theorem socketIn_append {nodes : List Node} {n : Node} {p : PortRef} {s : Socket}
    (h : socketIn (nodes ++ [n]) p = some s) :
    socketIn nodes p = some s ∨ p.node = nodes.length ∧ (n.sockets p.direction)[p.slot]? = some s := by
  obtain ⟨node, hnode, hs⟩ := exists_of_socketIn_eq_some h
  rcases of_getElem?_concat hnode with hold | ⟨heq, rfl⟩
  · exact .inl ((socketIn_of_getElem? hold p.direction p.slot).trans hs)
  · exact .inr ⟨heq, hs⟩

theorem socketIn_append_of_eq_some {nodes : List Node} (n : Node) {p : PortRef} {s : Socket}
    (h : socketIn nodes p = some s) : socketIn (nodes ++ [n]) p = some s := by
  obtain ⟨node, hnode, hs⟩ := exists_of_socketIn_eq_some h
  have hlt : p.node < nodes.length := (List.getElem?_eq_some_iff.mp hnode).1
  have hleft : (nodes ++ [n])[p.node]? = nodes[p.node]? := List.getElem?_append_left hlt
  exact (socketIn_of_getElem? (hleft.trans hnode) p.direction p.slot).trans hs

theorem edge_eq_none_of_ofSpec {id : NodeId} {spec : NodeSpec} {d : Direction} {slot : Nat}
    {s : Socket} (h : ((Node.ofSpec id spec).sockets d)[slot]? = some s) : s.edge = none := by
  cases d <;> simp only [Node.ofSpec, Node.sockets, List.getElem?_map, Option.map_eq_some_iff] at h <;>
    obtain ⟨port, -, rfl⟩ := h <;> rfl

/-- What has been looked at before two ports are joined, and the graph that results. -/
theorem connect_eq_ok {g g' : Graph} {source target : PortRef} {delay : UInt32} {id : EdgeId}
    (h : g.connect source target delay = .ok (id, g')) :
    ∃ outlet inlet : Port, source.direction = .output ∧ target.direction = .input ∧
      socketIn g.nodes source = some ⟨outlet, none⟩ ∧ socketIn g.nodes target = some ⟨inlet, none⟩ ∧
      id = g.edges.length ∧
      g' = ⟨attach (attach g.nodes source id) target id,
        g.edges ++ [⟨source, target, delay, outlet.element, outlet.rate, inlet.rate⟩]⟩ := by
  unfold connect at h
  simp only [bind, Except.bind, throw, throwThe, MonadExceptOf.throw, pure, Except.pure] at h
  split at h
  · cases h
  rename_i hsource
  split at h
  · cases h
  rename_i htarget
  cases hout : g.socketAt source with
  | error e => simp [hout] at h
  | ok outlet =>
    cases hin : g.socketAt target with
    | error e => simp [hout, hin] at h
    | ok inlet =>
      obtain ⟨outPort, outEdge⟩ := outlet
      obtain ⟨inPort, inEdge⟩ := inlet
      simp only [hout, hin] at h
      cases outEdge with
      | some e => simp at h
      | none =>
        cases inEdge with
        | some e => simp at h
        | none =>
          simp only [Option.isSome_none, Bool.false_eq_true, if_false, Except.ok.injEq,
            Prod.mk.injEq] at h
          obtain ⟨rfl, rfl⟩ := h
          exact ⟨outPort, inPort, by simpa using hsource, by simpa using htarget,
            socketAt_eq_ok_iff.mp hout, socketAt_eq_ok_iff.mp hin, rfl, rfl⟩

/-! ## Both sides of the relation -/

end Graph

def Direction.flip : Direction → Direction
  | .input => .output
  | .output => .input

theorem Direction.flip_flip (d : Direction) : d.flip.flip = d := by cases d <;> rfl

theorem Direction.eq_flip_of_ne {d d' : Direction} (h : d ≠ d') : d = d'.flip := by
  cases d <;> cases d' <;> first | rfl | exact absurd rfl h

/-- The port of an edge on one side: the source is an output and the target an input. -/
def Edge.portAt (e : Edge) : Direction → PortRef
  | .output => e.source
  | .input => e.target

/-- The tokens that a firing of the node on that side moves. -/
def Edge.rateAt (e : Edge) : Direction → Nat
  | .output => e.production.toNat
  | .input => e.consumption.toNat

namespace Graph

/-- Edges and sockets name each other. -/
structure Coherent (g : Graph) : Prop where
  source {id : EdgeId} {e : Edge} (h : g.edges[id]? = some e) : e.source.direction = .output ∧
    socketIn g.nodes e.source = some ⟨⟨e.element, e.production⟩, some id⟩
  target {id : EdgeId} {e : Edge} (h : g.edges[id]? = some e) : e.target.direction = .input ∧
    ∃ t, socketIn g.nodes e.target = some ⟨⟨t, e.consumption⟩, some id⟩
  bound {p : PortRef} {port : Port} {id : EdgeId} (h : socketIn g.nodes p = some ⟨port, some id⟩) :
    ∃ e, g.edges[id]? = some e ∧ p = e.portAt p.direction

theorem coherent_empty : Coherent .empty where
  source h := by simp [Graph.empty] at h
  target h := by simp [Graph.empty] at h
  bound h := by simp [Graph.empty, socketIn] at h

theorem Coherent.addNode {g : Graph} (h : Coherent g) (spec : NodeSpec) :
    Coherent (g.addNode spec).2 where
  source he := ⟨(h.source he).1, socketIn_append_of_eq_some _ (h.source he).2⟩
  target he := by
    obtain ⟨hdir, t, ht⟩ := h.target he
    exact ⟨hdir, t, socketIn_append_of_eq_some _ ht⟩
  bound hp := by
    rcases socketIn_append hp with hold | ⟨-, hnew⟩
    · exact h.bound hold
    · cases edge_eq_none_of_ofSpec hnew

theorem Coherent.connect {g g' : Graph} {source target : PortRef} {delay : UInt32} {id : EdgeId}
    (h : Coherent g) (step : g.connect source target delay = .ok (id, g')) : Coherent g' := by
  obtain ⟨outlet, inlet, hsource, htarget, hout, hin, rfl, rfl⟩ := connect_eq_ok step
  have hne : source ≠ target := by
    rintro rfl
    rw [hsource] at htarget
    cases htarget
  -- A bound socket is none of the two free ones, so it stays as it is.
  have keep {p : PortRef} {port : Port} {old : EdgeId}
      (hp : socketIn g.nodes p = some ⟨port, some old⟩) :
      socketIn (attach (attach g.nodes source g.edges.length) target g.edges.length) p =
        some ⟨port, some old⟩ := by
    have hps : p ≠ source := by
      rintro rfl
      simp [hout] at hp
    have hpt : p ≠ target := by
      rintro rfl
      simp [hin] at hp
    rw [socketIn_attach, if_neg hpt, socketIn_attach, if_neg hps, hp]
  refine ⟨fun {eid e} he ↦ ?_, fun {eid e} he ↦ ?_, fun {p port eid} hp ↦ ?_⟩
  · rcases of_getElem?_concat he with hold | ⟨rfl, rfl⟩
    · exact ⟨(h.source hold).1, keep (h.source hold).2⟩
    · refine ⟨hsource, ?_⟩
      rw [socketIn_attach, if_neg hne, socketIn_attach, if_pos rfl, hout]
      rfl
  · rcases of_getElem?_concat he with hold | ⟨rfl, rfl⟩
    · obtain ⟨hdir, t, ht⟩ := h.target hold
      exact ⟨hdir, t, keep ht⟩
    · refine ⟨htarget, inlet.element, ?_⟩
      rw [socketIn_attach, if_pos rfl, socketIn_attach, if_neg hne.symm, hin]
      rfl
  · rw [socketIn_attach, socketIn_attach, socketIn_attach] at hp
    by_cases hpt : p = target
    · subst hpt
      rw [if_pos rfl, if_neg hne.symm, hin] at hp
      cases hp
      exact ⟨_, List.getElem?_concat_length, by rw [htarget]; rfl⟩
    · rw [if_neg hpt] at hp
      by_cases hps : p = source
      · subst hps
        rw [if_pos rfl, hout] at hp
        cases hp
        exact ⟨_, List.getElem?_concat_length, by rw [hsource]; rfl⟩
      · rw [if_neg hps] at hp
        obtain ⟨e, he, hport⟩ := h.bound hp
        have hlt : eid < g.edges.length := (List.getElem?_eq_some_iff.mp he).1
        exact ⟨e, (List.getElem?_append_left hlt).trans he, hport⟩

theorem Built.coherent {g : Graph} (h : Built g) : Coherent g := by
  induction h with
  | empty => exact coherent_empty
  | addNode _ s ih => exact ih.addNode s
  | connect _ step ih => exact ih.connect step

/-! ## The edges of a node -/

/-- The edges at the inputs or the outputs of a node, in the order of its slots. -/
def edgesAt (g : Graph) (d : Direction) (n : NodeId) : List EdgeId :=
  (g.nodes[n]?.map fun node ↦ (node.sockets d).filterMap (·.edge)).getD []

theorem edgesAt_input (g : Graph) (n : NodeId) : g.edgesAt .input n = g.inputEdges n := rfl

theorem edgesAt_of_getElem? {g : Graph} {n : NodeId} {node : Node} (h : g.nodes[n]? = some node)
    (d : Direction) : g.edgesAt d n = (node.sockets d).filterMap (·.edge) := by
  simp [edgesAt, h]

namespace Coherent

variable {g : Graph}

theorem ends (h : Coherent g) {id : EdgeId} {e : Edge} (he : g.edges[id]? = some e)
    (d : Direction) : (e.portAt d).direction = d ∧
      ∃ port : Port, port.rate.toNat = e.rateAt d ∧
        socketIn g.nodes (e.portAt d) = some ⟨port, some id⟩ := by
  cases d with
  | output => exact ⟨(h.source he).1, _, rfl, (h.source he).2⟩
  | input =>
    obtain ⟨hdir, t, ht⟩ := h.target he
    exact ⟨hdir, _, rfl, ht⟩

/-- The edges at one side of a node are those that have this node on that side. -/
theorem mem_edgesAt (h : Coherent g) {d : Direction} {n : NodeId} {id : EdgeId} :
    id ∈ g.edgesAt d n ↔ ∃ e, g.edges[id]? = some e ∧ (e.portAt d).node = n := by
  constructor
  · intro hmem
    cases hn : g.nodes[n]? with
    | none => simp [edgesAt, hn] at hmem
    | some node =>
      rw [edgesAt_of_getElem? hn, List.mem_filterMap] at hmem
      obtain ⟨⟨port, edge⟩, hs, rfl⟩ := hmem
      obtain ⟨slot, hslot⟩ := List.mem_iff_getElem?.mp hs
      obtain ⟨e, he, hport⟩ := h.bound ((socketIn_of_getElem? hn d slot).trans hslot)
      exact ⟨e, he, congrArg PortRef.node hport.symm⟩
  · rintro ⟨e, he, rfl⟩
    obtain ⟨hdir, port, -, hs⟩ := h.ends he d
    obtain ⟨node, hn, hslot⟩ := exists_of_socketIn_eq_some hs
    rw [hdir] at hslot
    rw [edgesAt_of_getElem? hn, List.mem_filterMap]
    exact ⟨_, List.mem_of_getElem? hslot, rfl⟩

/-- The edges that a node has on either side have it at one end. -/
theorem exists_end_of_mem (h : Coherent g) {n : NodeId} {id : EdgeId}
    (hmem : id ∈ g.outputEdges n ++ g.inputEdges n) :
    ∃ e, g.edges[id]? = some e ∧ ∃ d, (e.portAt d).node = n := by
  rcases List.mem_append.mp hmem with hout | hin
  · obtain ⟨e, he, hn⟩ := (h.mem_edgesAt (d := .output)).mp hout
    exact ⟨e, he, .output, hn⟩
  · obtain ⟨e, he, hn⟩ := (h.mem_edgesAt (d := .input)).mp hin
    exact ⟨e, he, .input, hn⟩

/-- No edge is bound to two slots of a node on the same side. -/
theorem nodup_edgesAt (h : Coherent g) (d : Direction) (n : NodeId) : (g.edgesAt d n).Nodup := by
  cases hn : g.nodes[n]? with
  | none => simp [edgesAt, hn]
  | some node =>
    rw [edgesAt_of_getElem? hn, List.Nodup, List.pairwise_filterMap, List.pairwise_iff_getElem]
    intro i j hi hj hij id hid id' hid' heq
    subst heq
    -- Both slots would be the port of one edge.
    have slotAt {k : Nat} (hk : k < (node.sockets d).length)
        (hedge : (node.sockets d)[k].edge = some id) :
        ∃ e, g.edges[id]? = some e ∧ (⟨n, d, k⟩ : PortRef) = e.portAt d := by
      have hs : socketIn g.nodes ⟨n, d, k⟩ = some ⟨(node.sockets d)[k].port, some id⟩ := by
        rw [socketIn_of_getElem? hn, List.getElem?_eq_getElem hk, ← hedge]
      exact h.bound hs
    obtain ⟨e, he, hporti⟩ := slotAt hi hid
    obtain ⟨e', he', hportj⟩ := slotAt hj hid'
    cases Option.some.inj (he.symm.trans he')
    have hslot := congrArg PortRef.slot (hporti.trans hportj.symm)
    simp only at hslot
    omega

theorem node_lt (h : Coherent g) {id : EdgeId} {e : Edge} (he : g.edges[id]? = some e)
    (d : Direction) : (e.portAt d).node < g.nodes.length := by
  obtain ⟨-, port, -, hs⟩ := h.ends he d
  obtain ⟨node, hn, -⟩ := exists_of_socketIn_eq_some hs
  exact (List.getElem?_eq_some_iff.mp hn).1

end Coherent

end Dataflow.Graph
