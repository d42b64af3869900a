import Dataflow.Description.Network

/-!
# Reports on plans

A report tells a plan by names instead of indices. Its numbers are machine words.
-/

namespace Dataflow

structure NodeReport where
  name : String
  code : UInt32
  repetitions : UInt32
  deriving DecidableEq, Repr

structure EdgeReport where
  source : String
  target : String
  type : String
  production : UInt32
  consumption : UInt32
  delay : UInt32
  capacity : UInt64
  bytes : UInt64
  deriving DecidableEq, Repr

structure Report where
  name : String
  mode : Mode
  /-- Firings in one period. -/
  activations : UInt64
  memoryBytes : UInt64
  order : List String
  /-- Only where nodes are fired by readiness instead of in a fixed order. -/
  firingOrder : Option (List String)
  nodes : List NodeReport
  edges : List EdgeReport
  deriving DecidableEq, Repr

/-- The name of a node; an unknown one is told by its index. -/
def Graph.nodeName (g : Graph) (n : NodeId) : String :=
  match g.nodes[n]? with
  | some node => node.name
  | none => NodeId.text n

namespace Report

def node (p : Plan) (n : Node) (id : NodeId) : NodeReport :=
  ⟨n.name, n.code, UInt32.ofNat (p.repetitions.get id)⟩

def edge (p : Plan) (e : Edge) (id : EdgeId) : EdgeReport :=
  let capacity := (p.capacity? id).getD 0
  { source := p.graph.portName e.source
    target := p.graph.portName e.target
    type := e.element.name
    production := e.production
    consumption := e.consumption
    delay := e.delay
    capacity := UInt64.ofNat capacity
    bytes := UInt64.ofNat (Plan.edgeBytes e capacity) }

/-- The report on a plan for the graph called `name`. -/
def ofPlan (name : String) (p : Plan) : Report where
  name := name
  mode := p.mode
  activations := UInt64.ofNat p.repetitions.total
  memoryBytes := UInt64.ofNat p.memoryBytes
  order := p.order.map p.graph.nodeName
  firingOrder :=
    match p.schedule with
    | .guarded guards => some (guards.firingOrder.map p.graph.nodeName)
    | .ordered _ => none
  nodes := p.graph.nodes.zipIdx.map fun (n, id) ↦ node p n id
  edges := p.graph.edges.zipIdx.map fun (e, id) ↦ edge p e id

end Report

end Dataflow
