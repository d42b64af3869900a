import Dataflow.Proofs.Graph.Validity
import Mathlib.Data.List.Induction

/-!
# Graphs under construction

A graph grows by calls that add a node or join two ports. Each call is answered by the index at which
what it made stands from then on, or refused, which leaves the graph as it is. After any calls edges and
sockets name each other, the rates of an edge are those of its two ports, and `validate` accepts exactly
the graphs that have a node, no idle port and no edge between different types.
-/

namespace Dataflow

/-! ## What a node was declared with -/

/-- The declaration with the code that a node at this index gets. -/
def NodeSpec.numbered (s : NodeSpec) (id : NodeId) : NodeSpec :=
  { s with code := some (s.code.getD (UInt32.ofNat id)) }

/-- The node without its edges. -/
def Node.spec (n : Node) : NodeSpec where
  name := n.name
  code := some n.code
  inputs := n.inputs.map (·.port)
  outputs := n.outputs.map (·.port)

@[simp]
theorem Node.spec_ofSpec (id : NodeId) (s : NodeSpec) : (Node.ofSpec id s).spec = s.numbered id := by
  simp [Node.spec, Node.ofSpec, NodeSpec.numbered, Function.comp_def]

theorem map_port_modify (sockets : List Socket) (slot : Nat) (id : EdgeId) :
    (sockets.modify slot ({ · with edge := some id })).map (·.port) = sockets.map (·.port) := by
  apply List.ext_getElem?
  intro i
  simp only [List.getElem?_map, List.getElem?_modify]
  by_cases h : slot = i <;> cases sockets[i]? <;> simp [h]

@[simp]
theorem Node.spec_attach (n : Node) (d : Direction) (slot : Nat) (id : EdgeId) :
    (n.attach d slot id).spec = n.spec := by
  cases d <;> simp [Node.spec, Node.attach, map_port_modify]

namespace Graph

@[simp]
theorem map_spec_attach (nodes : List Node) (p : PortRef) (id : EdgeId) :
    (attach nodes p id).map Node.spec = nodes.map Node.spec := by
  apply List.ext_getElem?
  intro i
  simp only [attach, List.getElem?_map, List.getElem?_modify]
  by_cases h : p.node = i <;> cases nodes[i]? <;> simp [h]

/-- The node at an index with what it was declared with. -/
def spec? (g : Graph) (n : NodeId) : Option NodeSpec := (g.nodes.map Node.spec)[n]?

/-! ## Single calls -/

inductive Call where
  | addNode (spec : NodeSpec)
  | connect (source target : PortRef) (delay : UInt32)
  deriving DecidableEq, Repr

inductive Answer where
  | node (id : NodeId)
  | edge (id : EdgeId)
  | refused (error : GraphError)
  deriving DecidableEq, Repr

namespace Answer

def node? : Answer → Option NodeId
  | node id => some id
  | _ => none

def edge? : Answer → Option EdgeId
  | edge id => some id
  | _ => none

end Answer

/-- The answer to a call, and the graph afterwards. -/
def call (g : Graph) : Call → Answer × Graph
  | .addNode spec => let (id, g) := g.addNode spec; (.node id, g)
  | .connect source target delay =>
    match g.connect source target delay with
    | .ok (id, g) => (.edge id, g)
    | .error error => (.refused error, g)

/-- The answers to calls one after another, and the graph afterwards. -/
def callAll (g : Graph) : List Call → List Answer × Graph
  | [] => ([], g)
  | c :: calls =>
    let (answer, g) := g.call c
    let (answers, g) := g.callAll calls
    (answer :: answers, g)

theorem callAll_concat (g : Graph) (calls : List Call) (c : Call) :
    g.callAll (calls ++ [c]) =
      ((g.callAll calls).1 ++ [((g.callAll calls).2.call c).1], ((g.callAll calls).2.call c).2) := by
  induction calls generalizing g with
  | nil => rfl
  | cons first calls ih => simp [callAll, ih]

/-- An output and an input that both exist and are free. -/
def Joinable (g : Graph) (source target : PortRef) : Prop :=
  source.direction = .output ∧ target.direction = .input ∧
    (∃ port, socketIn g.nodes source = some ⟨port, none⟩) ∧
    ∃ port, socketIn g.nodes target = some ⟨port, none⟩

/-- Two free ports can be joined. -/
theorem connect_of_joinable {g : Graph} {source target : PortRef} (h : g.Joinable source target)
    (delay : UInt32) : ∃ g', g.connect source target delay = .ok (g.edges.length, g') := by
  obtain ⟨hsource, htarget, ⟨outlet, hout⟩, ⟨inlet, hin⟩⟩ := h
  simp [connect, hsource, htarget, socketAt_eq_ok_iff.mpr hout, socketAt_eq_ok_iff.mpr hin, bind,
    Except.bind, pure, Except.pure]

/-- Ports are joined exactly when both are free, and otherwise the graph stays as it is. -/
theorem call_connect (g : Graph) (source target : PortRef) (delay : UInt32) :
    (g.Joinable source target ∧
        ∃ g', g.call (.connect source target delay) = (.edge g.edges.length, g')) ∨
      ¬ g.Joinable source target ∧
        ∃ error, g.call (.connect source target delay) = (.refused error, g) := by
  by_cases h : g.Joinable source target
  · obtain ⟨g', hconnect⟩ := connect_of_joinable h delay
    exact .inl ⟨h, g', by simp [call, hconnect]⟩
  · refine .inr ⟨h, ?_⟩
    cases hconnect : g.connect source target delay with
    | error error => exact ⟨error, by simp [call, hconnect]⟩
    | ok joined =>
      obtain ⟨outlet, inlet, hsource, htarget, hout, hin, -⟩ := connect_eq_ok hconnect
      exact absurd ⟨hsource, htarget, ⟨outlet, hout⟩, ⟨inlet, hin⟩⟩ h

/-! ## Rows of calls -/

theorem getElem?_of_prefix {α : Type} {l l' : List α} (h : l <+: l') {i : Nat} {a : α}
    (ha : l[i]? = some a) : l'[i]? = some a := by
  obtain ⟨more, rfl⟩ := h
  exact (List.getElem?_append_left (List.getElem?_eq_some_iff.mp ha).1).trans ha

/-- Nodes and edges are known by their answers, and stand there as the calls told. -/
structure Recorded (calls : List Call) (answers : List Answer) (g : Graph) : Prop where
  length : answers.length = calls.length
  nodes : answers.filterMap Answer.node? = List.range g.nodes.length
  edges : answers.filterMap Answer.edge? = List.range g.edges.length
  node {i : Nat} {spec : NodeSpec} (h : calls[i]? = some (.addNode spec)) :
    ∃ id, answers[i]? = some (.node id) ∧ g.spec? id = some (spec.numbered id)
  edge {i : Nat} {source target : PortRef} {delay : UInt32}
    (h : calls[i]? = some (.connect source target delay)) :
    (∃ error, answers[i]? = some (.refused error)) ∨
      ∃ id e, answers[i]? = some (.edge id) ∧ g.edges[id]? = some e ∧
        e.source = source ∧ e.target = target ∧ e.delay = delay

/-- What is recorded stays true when nodes and edges only come behind the old ones, and the answer to
one more call tells where its own stands. -/
theorem Recorded.extend {calls : List Call} {answers : List Answer} {g g' : Graph}
    (h : Recorded calls answers g) {c : Call} {a : Answer}
    (hnodes : (g.nodes.map Node.spec) <+: g'.nodes.map Node.spec) (hedges : g.edges <+: g'.edges)
    (hnodeId : List.range g.nodes.length ++ a.node?.toList = List.range g'.nodes.length)
    (hedgeId : List.range g.edges.length ++ a.edge?.toList = List.range g'.edges.length)
    (hnode : ∀ spec, c = .addNode spec →
      ∃ id, a = .node id ∧ g'.spec? id = some (spec.numbered id))
    (hedge : ∀ source target delay, c = .connect source target delay →
      (∃ error, a = .refused error) ∨ ∃ id e, a = .edge id ∧ g'.edges[id]? = some e ∧
        e.source = source ∧ e.target = target ∧ e.delay = delay) :
    Recorded (calls ++ [c]) (answers ++ [a]) g' := by
  have hold {i : Nat} {x : Answer} (hx : answers[i]? = some x) : (answers ++ [a])[i]? = some x :=
    (List.getElem?_append_left (List.getElem?_eq_some_iff.mp hx).1).trans hx
  have hnew : (answers ++ [a])[calls.length]? = some a := by
    rw [← h.length, List.getElem?_concat_length]
  refine ⟨by simp [h.length], ?_, ?_, fun {i spec} hi ↦ ?_, fun {i source target delay} hi ↦ ?_⟩
  · rw [List.filterMap_append, h.nodes, ← hnodeId]
    cases ha : a.node? <;> simp [ha]
  · rw [List.filterMap_append, h.edges, ← hedgeId]
    cases ha : a.edge? <;> simp [ha]
  · rcases of_getElem?_concat hi with hi | ⟨rfl, rfl⟩
    · obtain ⟨id, ha, hid⟩ := h.node hi
      exact ⟨id, hold ha, getElem?_of_prefix hnodes hid⟩
    · obtain ⟨id, rfl, hid⟩ := hnode spec rfl
      exact ⟨id, hnew, hid⟩
  · rcases of_getElem?_concat hi with hi | ⟨rfl, rfl⟩
    · exact (h.edge hi).imp (fun ⟨error, ha⟩ ↦ ⟨error, hold ha⟩)
        fun ⟨id, e, ha, he, hports⟩ ↦ ⟨id, e, hold ha, getElem?_of_prefix hedges he, hports⟩
    · rcases hedge source target delay rfl with ⟨error, rfl⟩ | ⟨id, e, rfl, he⟩
      · exact .inl ⟨error, hnew⟩
      · exact .inr ⟨id, e, hnew, he⟩

theorem Recorded.concat {calls : List Call} {answers : List Answer} {g : Graph}
    (h : Recorded calls answers g) (c : Call) :
    Recorded (calls ++ [c]) (answers ++ [(g.call c).1]) (g.call c).2 := by
  cases c with
  | addNode spec =>
    refine h.extend ?_ List.prefix_rfl ?_ ?_ (fun s hs ↦ ?_) nofun
    · simp [call, addNode]
    · simp [call, addNode, Answer.node?, List.range_succ]
    · simp [call, addNode, Answer.edge?]
    · cases hs
      exact ⟨g.nodes.length, rfl, by simp [call, addNode, spec?]⟩
  | connect source target delay =>
    cases hconnect : g.connect source target delay with
    | error error =>
      have hcall : g.call (.connect source target delay) = (.refused error, g) := by
        simp [call, hconnect]
      rw [hcall]
      exact h.extend List.prefix_rfl List.prefix_rfl (by simp [Answer.node?]) (by simp [Answer.edge?])
        nofun fun _ _ _ _ ↦ .inl ⟨error, rfl⟩
    | ok joined =>
      obtain ⟨id, g'⟩ := joined
      have hcall : g.call (.connect source target delay) = (.edge id, g') := by
        simp [call, hconnect]
      obtain ⟨outlet, inlet, -, -, -, -, rfl, rfl⟩ := connect_eq_ok hconnect
      rw [hcall]
      refine h.extend (by simp) (List.prefix_append _ _) ?_ ?_ nofun fun s t d hc ↦ ?_
      · simp [Answer.node?, attach]
      · simp [Answer.edge?, List.range_succ]
      · cases hc
        exact .inr ⟨_, _, rfl, List.getElem?_concat_length, rfl, rfl, rfl⟩

theorem recorded_callAll (calls : List Call) :
    Recorded calls (Graph.empty.callAll calls).1 (Graph.empty.callAll calls).2 := by
  induction calls using List.reverseRecOn with
  | nil => exact ⟨rfl, rfl, rfl, by simp, by simp⟩
  | append_singleton calls c ih =>
    rw [callAll_concat]
    exact ih.concat c

theorem Built.call {g : Graph} (h : g.Built) (c : Call) : (g.call c).2.Built := by
  cases c with
  | addNode spec => exact h.addNode spec
  | connect source target delay =>
    cases hconnect : g.connect source target delay with
    | error error => simpa [Graph.call, hconnect] using h
    | ok joined => simpa [Graph.call, hconnect] using h.connect hconnect

theorem built_callAll (calls : List Call) : (Graph.empty.callAll calls).2.Built := by
  induction calls using List.reverseRecOn with
  | nil => exact .empty
  | append_singleton calls c ih =>
    rw [callAll_concat]
    exact ih.call c

/-! ## Ports and edges -/

/-- How ports and edges of a graph belong together. -/
structure Wired (g : Graph) : Prop where
  outputEdge (n : NodeId) (slot : Nat) (id : EdgeId) :
    g.nodes[n]?.bind (·.outputEdge slot) = some id ↔
      ∃ e, g.edges[id]? = some e ∧ e.source = .out n slot
  inputEdge (n : NodeId) (slot : Nat) (id : EdgeId) :
    g.nodes[n]?.bind (·.inputEdge slot) = some id ↔
      ∃ e, g.edges[id]? = some e ∧ e.target = .into n slot
  /-- No port belongs to two edges. -/
  port_unique {id id' : EdgeId} {e e' : Edge} (he : g.edges[id]? = some e)
    (he' : g.edges[id']? = some e') {p : PortRef} (h : p = e.source ∨ p = e.target)
    (h' : p = e'.source ∨ p = e'.target) : id = id'
  /-- The ports that are bound to an edge are its source and its target, which differ. -/
  port_iff {id : EdgeId} {e : Edge} (he : g.edges[id]? = some e) : e.source ≠ e.target ∧
    ∀ p, (socketIn g.nodes p).bind (·.edge) = some id ↔ p = e.source ∨ p = e.target
  /-- Rates and type of an edge are those that its ports were declared with. -/
  declared {id : EdgeId} {e : Edge} (he : g.edges[id]? = some e) :
    ∃ outlet inlet : Port, (socketIn g.nodes e.source).map (·.port) = some outlet ∧
      (socketIn g.nodes e.target).map (·.port) = some inlet ∧ e.element = outlet.element ∧
      e.production = outlet.rate ∧ e.consumption = inlet.rate

/-- There is a node, every port has a positive rate and an edge, and the two ports of every edge carry
the same type. -/
structure Complete (g : Graph) : Prop where
  nonempty : g.nodes ≠ []
  port {p : PortRef} {s : Socket} (h : socketIn g.nodes p = some s) :
    0 < s.port.rate.toNat ∧ s.edge.isSome
  types {id : EdgeId} {e : Edge} (he : g.edges[id]? = some e) {outlet inlet : Socket}
    (hsource : socketIn g.nodes e.source = some outlet)
    (htarget : socketIn g.nodes e.target = some inlet) : outlet.port.element = inlet.port.element

namespace Coherent

variable {g : Graph}

theorem edge_portAt (hg : g.Coherent) {id : EdgeId} {e : Edge} (he : g.edges[id]? = some e)
    (d : Direction) : (socketIn g.nodes (e.portAt d)).bind (·.edge) = some id := by
  obtain ⟨-, port, -, hs⟩ := hg.ends he d
  simp [hs]

/-- A port is bound to an edge when it is the port of the edge on this side. -/
theorem edge_eq_some_iff (hg : g.Coherent) {p : PortRef} {id : EdgeId} :
    (socketIn g.nodes p).bind (·.edge) = some id ↔
      ∃ e, g.edges[id]? = some e ∧ p = e.portAt p.direction := by
  constructor
  · intro h
    obtain ⟨⟨port, edge⟩, hs, rfl⟩ := Option.bind_eq_some_iff.mp h
    exact hg.bound hs
  · rintro ⟨e, he, hp⟩
    rw [hp]
    exact hg.edge_portAt he p.direction

theorem eq_portAt_iff (hg : g.Coherent) {id : EdgeId} {e : Edge} (he : g.edges[id]? = some e)
    (p : PortRef) : p = e.portAt p.direction ↔ p = e.source ∨ p = e.target := by
  constructor
  · intro h
    rw [h]
    cases p.direction with
    | output => exact .inl rfl
    | input => exact .inr rfl
  · rintro (rfl | rfl)
    · rw [(hg.source he).1]
      rfl
    · rw [(hg.target he).1]
      rfl

theorem wired (hg : g.Coherent) : g.Wired where
  outputEdge n slot id := by
    have hsocket : g.nodes[n]?.bind (·.outputEdge slot) =
        (socketIn g.nodes (.out n slot)).bind (·.edge) := by
      cases hn : g.nodes[n]? <;> simp [socketIn, PortRef.out, Node.sockets, Node.outputEdge, hn]
    rw [hsocket, hg.edge_eq_some_iff]
    exact exists_congr fun e ↦ and_congr_right fun _ ↦ eq_comm
  inputEdge n slot id := by
    have hsocket : g.nodes[n]?.bind (·.inputEdge slot) =
        (socketIn g.nodes (.into n slot)).bind (·.edge) := by
      cases hn : g.nodes[n]? <;> simp [socketIn, PortRef.into, Node.sockets, Node.inputEdge, hn]
    rw [hsocket, hg.edge_eq_some_iff]
    exact exists_congr fun e ↦ and_congr_right fun _ ↦ eq_comm
  port_unique {_ _ _ _} he he' {_} h h' := by
    have hbound := hg.edge_eq_some_iff.mpr ⟨_, he, (hg.eq_portAt_iff he _).mpr h⟩
    rw [hg.edge_eq_some_iff.mpr ⟨_, he', (hg.eq_portAt_iff he' _).mpr h'⟩] at hbound
    exact (Option.some.inj hbound).symm
  port_iff {id e} he := by
    refine ⟨fun h ↦ ?_, fun p ↦ ?_⟩
    · have hdirection := (hg.source he).1
      rw [h, (hg.target he).1] at hdirection
      cases hdirection
    · rw [hg.edge_eq_some_iff, ← hg.eq_portAt_iff he]
      simp [he]
  declared he := by
    obtain ⟨-, t, ht⟩ := hg.target he
    exact ⟨_, _, congrArg (Option.map _) (hg.source he).2, congrArg (Option.map _) ht, rfl, rfl, rfl⟩

/-- The check of an edge finds no fault when its two ports carry the same type. -/
theorem edgeFaults_eq_nil_iff (hg : g.Coherent) {id : EdgeId} {e : Edge}
    (he : g.edges[id]? = some e) {outlet inlet : Socket}
    (hsource : socketIn g.nodes e.source = some outlet)
    (htarget : socketIn g.nodes e.target = some inlet) :
    g.edgeFaults id e = [] ↔ outlet.port.element = inlet.port.element := by
  have helement : outlet.port.element = e.element := by
    rw [(hg.source he).2] at hsource
    cases hsource
    rfl
  have htype : g.targetElement? e = some inlet.port.element := by
    obtain ⟨node, hn, hslot⟩ := exists_of_socketIn_eq_some htarget
    rw [(hg.target he).1] at hslot
    simp only [Node.sockets] at hslot
    simp [targetElement?, hn, hslot]
  rw [edgeFaults, htype, helement]
  simp [eq_comm]

theorem validate_eq_ok_iff_complete (hg : g.Coherent) : g.validate = .ok () ↔ g.Complete := by
  rw [validate_eq_ok_iff]
  constructor
  · intro h
    exact ⟨List.ne_nil_of_length_pos h.nonempty, h.socket,
      fun he _ _ hsource htarget ↦ (hg.edgeFaults_eq_nil_iff he hsource htarget).mp (h.types he)⟩
  · intro h
    refine ⟨List.length_pos_iff.mpr h.nonempty, h.port, fun {id e} he ↦ ?_⟩
    obtain ⟨-, t, ht⟩ := hg.target he
    exact (hg.edgeFaults_eq_nil_iff he (hg.source he).2 ht).mpr (h.types he (hg.source he).2 ht)

end Coherent

/-- After any calls on the empty graph, what was made is known by its index, and ports and edges belong
together. One more call joins two ports exactly when both are free, and changes nothing otherwise;
`validate` accepts exactly the graphs in which nothing is missing. -/
theorem callAll_consistent (calls : List Call) :
    let answers := (Graph.empty.callAll calls).1
    let g := (Graph.empty.callAll calls).2
    Recorded calls answers g ∧ g.Wired ∧
      (∀ source target delay,
        (g.Joinable source target ∧
            ∃ g', g.call (.connect source target delay) = (.edge g.edges.length, g')) ∨
          ¬ g.Joinable source target ∧
            ∃ error, g.call (.connect source target delay) = (.refused error, g)) ∧
      (g.validate = .ok () ↔ g.Complete) := by
  intro answers g
  have hg : g.Coherent := (built_callAll calls).coherent
  exact ⟨recorded_callAll calls, hg.wired, g.call_connect, hg.validate_eq_ok_iff_complete⟩

end Graph

end Dataflow
