import Dataflow.Graph.Error

/-!
# Dataflow graphs

A graph is a list of nodes with ports and a list of edges, each from one output to one input. Nodes
and edges are known by their position. A node remembers the edge at each of its slots, so both
directions of the incidence relation can be read off without a search. `addNode` and `connect` are
the only ways to grow a graph.
-/

namespace Dataflow

/-- What a node is declared with; without a code it gets its index as the code. -/
structure NodeSpec where
  name : String
  code : Option UInt32
  inputs : List Port
  outputs : List Port
  deriving DecidableEq, Repr

/-- A port in its node, with the edge that is bound to it. -/
structure Socket where
  port : Port
  edge : Option EdgeId
  deriving DecidableEq, Repr

structure Node where
  name : String
  /-- The number a failure of this node is reported under. -/
  code : UInt32
  inputs : List Socket
  outputs : List Socket
  deriving DecidableEq, Repr

namespace Node

def ofSpec (id : NodeId) (s : NodeSpec) : Node where
  name := s.name
  code := s.code.getD (UInt32.ofNat id)
  inputs := s.inputs.map (⟨·, none⟩)
  outputs := s.outputs.map (⟨·, none⟩)

def sockets (n : Node) : Direction → List Socket
  | .input => n.inputs
  | .output => n.outputs

def inputEdge (n : Node) (slot : Nat) : Option EdgeId := n.inputs[slot]?.bind (·.edge)

def outputEdge (n : Node) (slot : Nat) : Option EdgeId := n.outputs[slot]?.bind (·.edge)

/-- The edges a node reads from, in the order of its slots. -/
def inputEdges (n : Node) : List EdgeId := n.inputs.filterMap (·.edge)

/-- The edges a node writes to, in the order of its slots. -/
def outputEdges (n : Node) : List EdgeId := n.outputs.filterMap (·.edge)

/-- The same node with `edge` bound to one of its slots. -/
def attach (n : Node) (direction : Direction) (slot : Nat) (edge : EdgeId) : Node :=
  match direction with
  | .input => { n with inputs := n.inputs.modify slot ({ · with edge := some edge }) }
  | .output => { n with outputs := n.outputs.modify slot ({ · with edge := some edge }) }

end Node

/-- The role of a node, as far as its port counts tell. -/
inductive NodeShape where
  | source
  | sink
  | transform
  | split
  | merge
  | mixed
  | isolated
  deriving DecidableEq, Repr

namespace NodeShape

def ofCounts (inputs outputs : Nat) : NodeShape :=
  match inputs, outputs with
  | 0, 0 => isolated
  | 0, _ => source
  | _, 0 => sink
  | 1, 1 => transform
  | 1, _ => split
  | _, 1 => merge
  | _, _ => mixed

def produces : NodeShape → Bool
  | sink | isolated => false
  | _ => true

def consumes : NodeShape → Bool
  | source | isolated => false
  | _ => true

end NodeShape

def Node.shape (n : Node) : NodeShape := NodeShape.ofCounts n.inputs.length n.outputs.length

/-- A buffered connection. It carries the element type of its source, starts with `delay` tokens,
gains `production` per firing of the source node and loses `consumption` per firing of the target. -/
structure Edge where
  source : PortRef
  target : PortRef
  delay : UInt32
  element : ElementType
  production : UInt32
  consumption : UInt32
  deriving DecidableEq, Repr

def Edge.isSelfLoop (e : Edge) : Bool := e.source.node == e.target.node

structure Graph where
  nodes : List Node
  edges : List Edge
  deriving DecidableEq, Repr

namespace Graph

def empty : Graph := ⟨[], []⟩

def addNode (g : Graph) (s : NodeSpec) : NodeId × Graph :=
  (g.nodes.length, { g with nodes := g.nodes ++ [Node.ofSpec g.nodes.length s] })

def socketAt (g : Graph) (p : PortRef) : Except GraphError Socket :=
  match g.nodes[p.node]? with
  | none => .error (.unknownNode p.node)
  | some n =>
    match (n.sockets p.direction)[p.slot]? with
    | none => .error (.unknownPort p)
    | some s => .ok s

/-- Binds `edge` to the port `p`. -/
def attach (nodes : List Node) (p : PortRef) (edge : EdgeId) : List Node :=
  nodes.modify p.node (·.attach p.direction p.slot edge)

/-- Joins an output to an input. Directions are looked at before existence, existence before use,
and the source before the target each time. -/
def connect (g : Graph) (source target : PortRef) (delay : UInt32) :
    Except GraphError (EdgeId × Graph) := do
  if source.direction ≠ .output then throw (.directionMismatch source)
  if target.direction ≠ .input then throw (.directionMismatch target)
  let outlet ← g.socketAt source
  let inlet ← g.socketAt target
  if outlet.edge.isSome then throw (.portInUse source)
  if inlet.edge.isSome then throw (.portInUse target)
  let id := g.edges.length
  let edge : Edge :=
    { source, target, delay
      element := outlet.port.element
      production := outlet.port.rate
      consumption := inlet.port.rate }
  return (id, { nodes := attach (attach g.nodes source id) target id, edges := g.edges ++ [edge] })

/-- The edges into a node, in slot order; none for an unknown node. -/
def inputEdges (g : Graph) (n : NodeId) : List EdgeId := (g.nodes[n]?.map Node.inputEdges).getD []

/-- The edges out of a node, in slot order; none for an unknown node. -/
def outputEdges (g : Graph) (n : NodeId) : List EdgeId := (g.nodes[n]?.map Node.outputEdges).getD []

/-- The first node of that name. -/
def find? (g : Graph) (name : String) : Option NodeId := g.nodes.findIdx? (·.name == name)

/-- Tokens an edge starts with; 0 for an unknown edge, as for the two rates below. -/
def delay (g : Graph) (e : EdgeId) : Nat := (g.edges[e]?.map (·.delay.toNat)).getD 0

def production (g : Graph) (e : EdgeId) : Nat := (g.edges[e]?.map (·.production.toNat)).getD 0

def consumption (g : Graph) (e : EdgeId) : Nat := (g.edges[e]?.map (·.consumption.toNat)).getD 0

end Graph

end Dataflow
