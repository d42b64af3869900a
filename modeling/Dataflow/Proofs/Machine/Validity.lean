import Dataflow.Proofs.Graph.Validity
import Dataflow.Proofs.Machine.Operation

/-!
# Checks of a graph by index

The edges of a node stand in a list of their own, and an edge finds its target by two indices. In a
graph that was built all of these exist, and the first check that fails tells the first violation.
-/

namespace Dataflow.Machine

/-- The first of the errors, if there is one. -/
def firstOf : List GraphError → Except GraphError Unit
  | [] => .ok ()
  | e :: _ => .error e

theorem firstOf_append (l l' : List GraphError) :
    firstOf (l ++ l') = (firstOf l >>= fun _ ↦ firstOf l') := by
  cases l <;> rfl

theorem firstOf_flatMap {α : Type} (l : List α) (f : α → List GraphError) :
    firstOf (l.flatMap f) = l.forM fun a ↦ firstOf (f a) := by
  induction l with
  | nil => rfl
  | cons a l ih =>
    rw [List.flatMap_cons, firstOf_append, ih]
    rfl

theorem validate_eq_firstOf (g : Graph) : g.validate = firstOf g.faults := by
  unfold Graph.validate
  cases g.faults <;> rfl

/-! ## Nodes -/

def checkPort (bound : List (Option EdgeId)) (port : Port) (p : PortRef) : Computation Unit :=
  if port.rate = 0 then refuse (.zeroRate p)
  else do
    let edge ← found bound[p.slot]?
    if edge.isNone then refuse (.unconnectedPort p) else .ok ()

def checkSide (sockets : List Socket) (port : Nat → PortRef) : Computation Unit :=
  sockets.zipIdx.forM fun (s, slot) ↦ checkPort (sockets.map (·.edge)) s.port (port slot)

def checkNode (id : NodeId) (n : Node) : Computation Unit := do
  checkSide n.inputs (.into id)
  checkSide n.outputs (.out id)

theorem checkPort_eq {bound : List (Option EdgeId)} {s : Socket} {p : PortRef}
    (h : bound[p.slot]? = some s.edge) : checkPort bound s.port p = of (firstOf (s.faults p)) := by
  unfold checkPort Socket.faults
  rw [h, found_some, ok_bind]
  split
  · rfl
  · split <;> rfl

theorem checkSide_eq (sockets : List Socket) {port : Nat → PortRef}
    (hslot : ∀ slot, (port slot).slot = slot) : checkSide sockets port =
      of (firstOf (sockets.zipIdx.flatMap fun (s, slot) ↦ s.faults (port slot))) := by
  rw [firstOf_flatMap]
  refine forM_of fun x hmem ↦ checkPort_eq ?_
  rw [hslot, List.getElem?_map, List.mem_zipIdx_iff_getElem?.mp hmem]
  rfl

theorem checkNode_eq (id : NodeId) (n : Node) : checkNode id n = of (firstOf (n.faults id)) := by
  rw [Node.faults, firstOf_append]
  exact bind_of (checkSide_eq n.inputs fun _ ↦ rfl) fun _ _ ↦ checkSide_eq n.outputs fun _ ↦ rfl

/-! ## Edges -/

def checkEdge (g : Graph) (id : EdgeId) (e : Edge) : Computation Unit := do
  let node ← found g.nodes[e.target.node]?
  let target ← found node.inputs[e.target.slot]?
  if target.port.element = e.element then .ok ()
  else refuse (.typeMismatch id e.element target.port.element)

theorem checkEdge_eq {g : Graph} (hg : g.Coherent) {id : EdgeId} {e : Edge}
    (he : g.edges[id]? = some e) : checkEdge g id e = of (firstOf (g.edgeFaults id e)) := by
  obtain ⟨hdirection, t, ht⟩ := hg.target he
  obtain ⟨node, hnode, hslot⟩ := Graph.exists_of_socketIn_eq_some ht
  rw [hdirection] at hslot
  have hinput : node.inputs[e.target.slot]? = some ⟨⟨t, e.consumption⟩, some id⟩ := hslot
  have htype : g.targetElement? e = some t := by simp [Graph.targetElement?, hnode, hinput]
  rw [checkEdge, Graph.edgeFaults, htype, hnode, found_some, ok_bind, hinput, found_some, ok_bind]
  dsimp only
  split <;> rfl

def validate (g : Graph) : Computation Unit :=
  if g.nodes.isEmpty then refuse .emptyGraph
  else do
    g.nodes.zipIdx.forM fun (n, id) ↦ checkNode id n
    g.edges.zipIdx.forM fun (e, id) ↦ checkEdge g id e

theorem validate_eq {g : Graph} (hg : g.Coherent) : validate g = of g.validate := by
  rw [validate_eq_firstOf, Graph.faults, List.append_assoc, validate]
  split
  · rfl
  · rw [List.nil_append, firstOf_append, firstOf_flatMap, firstOf_flatMap]
    refine bind_of (forM_of fun x _ ↦ checkNode_eq x.2 x.1) fun _ _ ↦ ?_
    exact forM_of fun x hmem ↦ checkEdge_eq hg (List.mem_zipIdx_iff_getElem?.mp hmem)

end Dataflow.Machine
