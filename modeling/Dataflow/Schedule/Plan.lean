import Dataflow.Schedule.Capacity
import Dataflow.Schedule.Guard
import Dataflow.Schedule.Period

/-!
# Plans

A plan is a valid graph with all that is needed to run it: firing counts, the order of one period and
the capacity of every edge. `Graph.compile` derives it, or tells why there is none.
-/

namespace Dataflow

/-- The longest period that is accepted unless another limit is given. -/
def defaultMaxPeriod : UInt64 := 65536

structure CompileOptions where
  mode : Mode
  margin : UInt32
  capacityLimit : Option UInt64
  maxPeriod : UInt64
  deriving DecidableEq, Repr

namespace CompileOptions

def default : CompileOptions := ⟨.static, 0, none, defaultMaxPeriod⟩

def sizing (o : CompileOptions) : SizingOptions := ⟨o.mode, o.margin, o.capacityLimit⟩

end CompileOptions

/-- How a plan tells which node is next. -/
inductive Schedule where
  /-- One period, to be replayed. -/
  | ordered (order : List NodeId)
  | guarded (guards : GuardSet)
  deriving DecidableEq, Repr

structure Plan where
  mode : Mode
  graph : Graph
  repetitions : Repetitions
  /-- One period. It is there in every mode, for capacities are taken from it. -/
  order : List NodeId
  capacities : List Nat
  deriving DecidableEq, Repr

namespace Plan

def schedule (p : Plan) : Schedule :=
  match p.mode with
  | .fullyAsynchronous => .guarded p.graph.guardSet
  | .static | .asynchronous => .ordered p.order

/-- The order in which nodes are visited: one period, or every node once when the mode has no period. -/
def firingOrder (p : Plan) : List NodeId :=
  match p.schedule with
  | .ordered order => order
  | .guarded guards => guards.firingOrder

def capacity? (p : Plan) (e : EdgeId) : Option Nat := p.capacities[e]?

/-- The bytes an edge takes, as a machine word. -/
def edgeBytes (e : Edge) (capacity : Nat) : Nat := Word.wrap (capacity * e.element.size.toNat)

/-- The bytes all edges take, as a machine word. -/
def memoryBytes (p : Plan) : Nat :=
  Word.wrap (((p.graph.edges.zip p.capacities).map fun (e, c) ↦ edgeBytes e c).foldr (· + ·) 0)

def diagnosticCode? (p : Plan) (n : NodeId) : Option UInt32 := p.graph.nodes[n]?.map (·.code)

end Plan

namespace Graph

def compile (g : Graph) (o : CompileOptions) : Except GraphError Plan := do
  g.validate
  let repetitions ← g.solve
  let order ← g.periodOrder repetitions o.maxPeriod.toNat
  let capacities ← g.capacities repetitions order o.sizing
  return { mode := o.mode, graph := g, repetitions, order, capacities }

end Graph

end Dataflow
