import Dataflow.Schedule.Balance

/-!
# The order of one period

One period fires every node as often as its repetition count says. `periodOrder` builds the order
greedily: at each position stands the lowest node that has firings left and whose next firing finds
the tokens it needs. When no node qualifies and firings are left, the period is deadlocked.

A token that is not there from the start comes from a particular firing of the source. Firings of all
nodes are numbered in one row, node after node, and a firing is known by its number in that row. For
counts that balance the graph the number always falls into the firings of the source itself.
-/

namespace Dataflow

/-- What a node asks of one input edge before its next firing. -/
structure Need where
  source : NodeId
  production : Nat
  consumption : Nat
  delay : Nat
  deriving DecidableEq, Repr

/-- One node of a period with its number of firings. -/
structure Task where
  node : NodeId
  count : Nat
  needs : List Need
  deriving DecidableEq, Repr

/-- The firings of each node so far, by node index, and those of the period so far, the latest first. -/
structure Progress where
  fired : Array Nat
  latest : List NodeId
  deriving DecidableEq, Repr

namespace Progress

def start (size : Nat) : Progress := ⟨Array.replicate size 0, []⟩

def firedOf (p : Progress) (n : NodeId) : Nat := p.fired.getD n 0

def fire (p : Progress) (n : NodeId) : Progress :=
  ⟨p.fired.setIfInBounds n (p.firedOf n + 1), n :: p.latest⟩

/-- Whether firing number `i`, counted from the first firing of node `n` in the row of all firings, is
done. The row has `span` nodes from `n` on, with the firings that `counts` says. -/
def isDone (p : Progress) (counts : Array Nat) : (span : Nat) → (n : NodeId) → (i : Nat) → Bool
  | 0, _, _ => false
  | span + 1, n, i =>
    let count := counts.getD n 0
    if i < count then i < p.firedOf n else isDone p counts span (n + 1) (i - count)

end Progress

namespace Need

/-- The tokens that firing `k` reads end at `(k + 1) * consumption`. They are there if the initial
tokens reach that far, or if the firing of the source that writes the last of them is done. -/
def isMet (d : Need) (counts : Array Nat) (p : Progress) (k : Nat) : Bool :=
  let last := (k + 1) * d.consumption
  last ≤ d.delay
    || p.isDone counts (counts.size - d.source) d.source ((last - 1 - d.delay) / d.production)

end Need

namespace Task

def isReady (t : Task) (counts : Array Nat) (p : Progress) : Bool :=
  let k := p.firedOf t.node
  k < t.count && t.needs.all (·.isMet counts p k)

end Task

namespace Graph

def need? (g : Graph) (id : EdgeId) : Option Need :=
  g.edges[id]?.map fun e ↦
    ⟨e.source.node, e.production.toNat, e.consumption.toNat, e.delay.toNat⟩

def tasks (g : Graph) (r : Repetitions) : List Task :=
  r.counts.zipIdx.map fun (count, n) ↦ ⟨n, count, (g.inputEdges n).filterMap g.need?⟩

/-- Fires the lowest ready node, at most `firings` times. -/
def advance (tasks : List Task) (counts : Array Nat) : (firings : Nat) → Progress → Progress
  | 0, p => p
  | firings + 1, p =>
    match tasks.find? (·.isReady counts p) with
    | none => p
    | some t => advance tasks counts firings (p.fire t.node)

/-- The order of one period of at most `limit` firings. -/
def periodOrder (g : Graph) (r : Repetitions) (limit : Nat) : Except GraphError (List NodeId) :=
  if limit < r.total then .error (.periodTooLong r.total limit)
  else
    let tasks := g.tasks r
    let p := advance tasks r.counts.toArray r.total (.start r.counts.length)
    match tasks.filter (fun t ↦ p.firedOf t.node < t.count) with
    | [] => .ok p.latest.reverse
    | stuck => .error (.deadlock (stuck.map (·.node)))

end Graph

end Dataflow
