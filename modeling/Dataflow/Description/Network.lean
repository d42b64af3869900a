import Dataflow.Description.Basic
import Dataflow.Description.Error

/-!
# From a description to a graph

Nodes and edges keep their order, so a description and its graph number them alike. A port is known by
the name of its node, a dot and its slot; names may have dots of their own, for the slot stands behind
the last one.
-/

namespace Dataflow

/-! ## Ports by name -/

/-- What stands before and behind the last dot. -/
def splitLastDot (cs : List Char) : Option (List Char × List Char) :=
  match cs.reverse.dropWhile (· != '.') with
  | [] => none
  | _ :: name => some (name.reverse, (cs.reverse.takeWhile (· != '.')).reverse)

/-- The slot that a text stands for: a number in one machine word, which may have a plus sign. -/
def slot? (cs : List Char) : Option Nat :=
  let digits := match cs with
    | '+' :: rest => rest
    | rest => rest
  (Decimal.value? digits).bind Word.checked

/-- The name of a port. -/
def Graph.portName (g : Graph) (p : PortRef) : String :=
  let node := match g.nodes[p.node]? with
    | some n => n.name
    | none => NodeId.text p.node
  node ++ "." ++ Decimal.text p.slot

/-- The node and the slot that a text names. The form of the text is looked at before the node. -/
def Graph.resolve (g : Graph) (text : String) : Except DescriptionError (NodeId × Nat) :=
  match splitLastDot text.toList with
  | none => .error (.invalidPortRef text)
  | some (name, digits) =>
    match slot? digits with
    | none => .error (.invalidPortRef text)
    | some slot =>
      match g.find? (String.ofList name) with
      | none => .error (.unknownNode (String.ofList name))
      | some n => .ok (n, slot)

/-! ## Graphs -/

namespace Description

def port (d : Description) (node : String) (p : PortDecl) : Except DescriptionError Port :=
  match d.types.get? p.type with
  | none => .error (.unknownType node p.type)
  | some size => .ok ⟨⟨p.type, size⟩, p.rate⟩

def nodeSpec (d : Description) (n : NodeDecl) : Except DescriptionError NodeSpec := do
  let inputs ← n.inputs.mapM (d.port n.name)
  let outputs ← n.outputs.mapM (d.port n.name)
  return ⟨n.name, n.code, inputs, outputs⟩

def addNode (d : Description) (g : Graph) (n : NodeDecl) : Except DescriptionError Graph := do
  if (g.find? n.name).isSome then throw (.duplicateNode n.name)
  return (g.addNode (← d.nodeSpec n)).2

def addEdge (g : Graph) (e : EdgeDecl) : Except DescriptionError Graph := do
  let (source, outSlot) ← g.resolve e.source
  let (target, inSlot) ← g.resolve e.target
  match g.connect (.out source outSlot) (.into target inSlot) e.delay with
  | .ok (_, g) => return g
  | .error error => throw (.graph error)

def toGraph (d : Description) : Except DescriptionError Graph := do
  d.edges.foldlM addEdge (← d.nodes.foldlM d.addNode Graph.empty)

def compile (d : Description) : Except DescriptionError Plan := do
  match (← d.toGraph).compile d.options with
  | .ok plan => return plan
  | .error error => throw (.graph error)

end Description

end Dataflow
