import Dataflow.Graph.Basic

/-!
# Readiness guards

A node may fire when every input edge holds the tokens it takes and every output edge has room for
those it adds. The guard of a node lists these demands in slot order.
-/

namespace Dataflow

/-- A number of tokens, or of free places, on one edge. -/
structure EdgeRate where
  edge : EdgeId
  rate : Nat
  deriving DecidableEq, Repr

structure Guard where
  node : NodeId
  inputs : List EdgeRate
  outputs : List EdgeRate
  deriving DecidableEq, Repr

/-- `available` and `free` give the tokens and the free places of each edge. -/
def Guard.isSatisfied (d : Guard) (available free : EdgeId → Nat) : Bool :=
  d.inputs.all (fun r ↦ r.rate ≤ available r.edge) && d.outputs.all (fun r ↦ r.rate ≤ free r.edge)

/-- Guards by node index, and the order in which a host looks for a node to fire. -/
structure GuardSet where
  firingOrder : List NodeId
  guards : List Guard
  deriving DecidableEq, Repr

namespace Graph

def guard (g : Graph) (n : NodeId) : Guard where
  node := n
  inputs := (g.inputEdges n).map fun e ↦ ⟨e, g.consumption e⟩
  outputs := (g.outputEdges n).map fun e ↦ ⟨e, g.production e⟩

def guardSet (g : Graph) : GuardSet where
  firingOrder := List.range g.nodes.length
  guards := (List.range g.nodes.length).map g.guard

end Graph

end Dataflow
