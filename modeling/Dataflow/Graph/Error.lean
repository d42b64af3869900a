import Dataflow.Graph.Port

/-!
# What can be wrong with a graph

The causes for which building a graph, or deriving a plan from it, is refused.
-/

namespace Dataflow

inductive GraphError where
  | emptyGraph
  | unknownNode (node : NodeId)
  | unknownPort (port : PortRef)
  /-- An input named as the source of an edge, or an output as its target. -/
  | directionMismatch (port : PortRef)
  | portInUse (port : PortRef)
  | unconnectedPort (port : PortRef)
  | zeroRate (port : PortRef)
  | typeMismatch (edge : EdgeId) (source target : ElementType)
  /-- Two ways to reach one node ask for different counts; `edge` is where they met. -/
  | inconsistent (edge : EdgeId)
  | rateOverflow (node : NodeId)
  /-- The nodes that still have firings left when none of them can fire. -/
  | deadlock (nodes : List NodeId)
  | periodTooLong (activations limit : Nat)
  /-- Firing `node` takes `edge` below zero or above its capacity. -/
  | unsatisfiable (edge : EdgeId) (node : NodeId)
  deriving DecidableEq, Repr

def GraphError.message : GraphError → String
  | .emptyGraph => "graph has no nodes"
  | .unknownNode n => "node " ++ NodeId.text n ++ " not found"
  | .unknownPort p => p.text ++ " does not exist"
  | .directionMismatch p => p.text ++ " cannot be used on this side of an edge"
  | .portInUse p => p.text ++ " is already connected"
  | .unconnectedPort p => p.text ++ " is not connected"
  | .zeroRate p => p.text ++ " has a rate of zero"
  | .typeMismatch e source target =>
    "edge " ++ EdgeId.text e ++ " connects " ++ source.text ++ " output to " ++ target.text ++ " input"
  | .inconsistent e =>
    "rates are inconsistent at edge " ++ EdgeId.text e ++ ": no periodic schedule exists"
  | .rateOverflow n => "repetition count of node " ++ NodeId.text n ++ " overflows"
  | .deadlock nodes =>
    "deadlock: cycle without enough delay through nodes ["
      ++ ", ".intercalate (nodes.map Decimal.text) ++ "]"
  | .periodTooLong activations limit =>
    "one period needs " ++ Decimal.text activations ++ " activations, limit is " ++ Decimal.text limit
  | .unsatisfiable e n =>
    "edge " ++ EdgeId.text e ++ " cannot carry the schedule: node " ++ NodeId.text n
      ++ " would over- or underflow it"

end Dataflow
