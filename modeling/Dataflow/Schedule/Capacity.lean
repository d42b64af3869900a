import Dataflow.Schedule.Balance
import Dataflow.Schedule.Guard
import Dataflow.Schedule.Mode

/-!
# Buffer capacities

A fixed order needs, on each edge, room for the most tokens that are there at any time while it is
replayed; a firing writes its outputs before it gives its inputs back. When firings may be put off or
reordered, the worst case is a source that ends its period before the target has read anything, and a
margin comes on top. A limit cuts every capacity, so the order is replayed once more against the
capacities that result.
-/

namespace Dataflow

structure SizingOptions where
  mode : Mode
  /-- Extra room in percent, rounded up, for the modes without a fixed order of firings. -/
  margin : UInt32
  limit : Option UInt64
  deriving DecidableEq, Repr

/-! ## Peaks -/

/-- The tokens on every edge, and the most there have been, by edge index. -/
structure Backlog where
  level : Array Nat
  peak : Array Nat
  deriving DecidableEq, Repr

namespace Backlog

def produce (b : Backlog) (r : EdgeRate) : Backlog :=
  let level := b.level.getD r.edge 0 + r.rate
  ⟨b.level.setIfInBounds r.edge level, b.peak.modify r.edge (max · level)⟩

def consume (n : NodeId) (b : Backlog) (r : EdgeRate) : Except GraphError Backlog :=
  let level := b.level.getD r.edge 0
  if level < r.rate then .error (.unsatisfiable r.edge n)
  else .ok { b with level := b.level.setIfInBounds r.edge (level - r.rate) }

/-- Fires a node, known by its guard. -/
def fire (b : Backlog) (d : Guard) : Except GraphError Backlog :=
  d.inputs.foldlM (consume d.node) (d.outputs.foldl produce b)

end Backlog

namespace Graph

/-- The initial tokens by edge index. -/
def delays (g : Graph) : Array Nat := (g.edges.map (·.delay.toNat)).toArray

/-- The guards of the nodes of an order. -/
def guardsOf (g : Graph) (order : List NodeId) : List Guard :=
  let guards := g.guardSet.guards.toArray
  order.map fun n ↦ guards.getD n ⟨n, [], []⟩

/-- The most tokens on each edge while the nodes with these guards fire from the initial tokens. -/
def peaks (g : Graph) (firings : List Guard) : Except GraphError (List Nat) := do
  let b ← firings.foldlM Backlog.fire ⟨g.delays, g.delays⟩
  return b.peak.toList

/-! ## Capacities -/

/-- A capacity with `margin` percent on top. The arithmetic is that of machine words. -/
def withMargin (capacity : Nat) (margin : UInt32) : Nat :=
  Word.wrap (capacity + (Word.wrap (capacity * margin.toNat) + 99) / 100)

/-- The tokens on an edge after a whole period of its source alone. -/
def burst (e : Edge) (r : Repetitions) : Nat :=
  e.delay.toNat + r.get e.source.node * e.production.toNat

def capacityOf (e : Edge) (peak : Nat) (r : Repetitions) (o : SizingOptions) : Nat :=
  let wanted :=
    if o.mode.isAsynchronous then withMargin (max peak (burst e r)) o.margin else peak
  match o.limit with
  | none => wanted
  | some limit => min wanted limit.toNat

/-! ## Replay against fixed capacities -/

/-- Fires a node, known by its guard, if it finds its tokens on every input and its room on every output
beforehand. -/
def fireWithin (capacities : Array Nat) (level : Array Nat) (d : Guard) :
    Except GraphError (Array Nat) :=
  match d.inputs.find? (fun r ↦ level.getD r.edge 0 < r.rate) with
  | some r => .error (.unsatisfiable r.edge d.node)
  | none =>
    match d.outputs.find?
        (fun r ↦ capacities.getD r.edge 0 - level.getD r.edge 0 < r.rate) with
    | some r => .error (.unsatisfiable r.edge d.node)
    | none =>
      let written := d.outputs.foldl (fun l r ↦ l.modify r.edge (· + r.rate)) level
      .ok (d.inputs.foldl (fun l r ↦ l.modify r.edge (· - r.rate)) written)

/-- The first edge for which `p` holds, given with its index, is reported with its source. -/
def rejectEdge (g : Graph) (p : EdgeId → Edge → Bool) : Except GraphError Unit :=
  match g.edges.zipIdx.find? (fun (e, id) ↦ p id e) with
  | none => .ok ()
  | some (e, id) => .error (.unsatisfiable id e.source.node)

/-- Replays firings from the initial tokens. They must find tokens and room throughout and come back to
the initial tokens on every edge. -/
def verify (g : Graph) (firings : List Guard) (capacities : Array Nat) : Except GraphError Unit := do
  g.rejectEdge (fun id e ↦ capacities.getD id 0 < e.delay.toNat)
  let level ← firings.foldlM (fireWithin capacities) g.delays
  g.rejectEdge (fun id e ↦ level.getD id 0 ≠ e.delay.toNat)

/-- The capacity of every edge for running `order`. -/
def capacities (g : Graph) (r : Repetitions) (order : List NodeId) (o : SizingOptions) :
    Except GraphError (List Nat) := do
  let firings := g.guardsOf order
  let peaks ← g.peaks firings
  let capacities := (g.edges.zip peaks).map fun (e, peak) ↦ capacityOf e peak r o
  g.verify firings capacities.toArray
  return capacities

end Graph

end Dataflow
