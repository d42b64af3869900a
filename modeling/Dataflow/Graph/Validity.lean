import Dataflow.Graph.Basic

/-!
# Validity

A graph is valid when it has a node, every port has a positive rate and an edge, and the two ends of
every edge carry the same element type. `faults` lists all violations in the order of declaration;
`validate` reports the first.
-/

namespace Dataflow

/-- What is wrong with one port. A rate of zero comes before a missing edge. -/
def Socket.faults (s : Socket) (p : PortRef) : List GraphError :=
  (if s.port.rate = 0 then [.zeroRate p] else [])
    ++ (if s.edge.isNone then [.unconnectedPort p] else [])

def Node.faults (n : Node) (id : NodeId) : List GraphError :=
  n.inputs.zipIdx.flatMap (fun (s, slot) ↦ s.faults (.into id slot))
    ++ n.outputs.zipIdx.flatMap (fun (s, slot) ↦ s.faults (.out id slot))

namespace Graph

/-- The type declared at the reading end of an edge. -/
def targetElement? (g : Graph) (e : Edge) : Option ElementType :=
  (g.nodes[e.target.node]?.bind (·.inputs[e.target.slot]?)).map (·.port.element)

def edgeFaults (g : Graph) (id : EdgeId) (e : Edge) : List GraphError :=
  match g.targetElement? e with
  | none => []
  | some t => if t = e.element then [] else [.typeMismatch id e.element t]

def faults (g : Graph) : List GraphError :=
  (if g.nodes.isEmpty then [.emptyGraph] else [])
    ++ g.nodes.zipIdx.flatMap (fun (n, id) ↦ n.faults id)
    ++ g.edges.zipIdx.flatMap (fun (e, id) ↦ g.edgeFaults id e)

def validate (g : Graph) : Except GraphError Unit :=
  match g.faults with
  | [] => .ok ()
  | fault :: _ => .error fault

end Graph

end Dataflow
