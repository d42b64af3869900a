import Dataflow.Engine.Basic

/-!
# From a plan to an engine

A host binds a behaviour to every node and a queue to every edge of a plan. The first mistake sticks:
what is bound after it has no effect, and `build` reports it. An engine is built when nothing is
missing and every node, in the order of declaration, accepts to start. An engine also ends here: it is
put back to its beginning, or closed.
-/

namespace Dataflow

variable {κ : Type} [ElementKind κ] {σ ω : Type}

inductive BindError where
  | unknownNode (node : NodeId)
  | unknownEdge (edge : EdgeId)
  | duplicateNode (node : NodeId)
  | duplicateQueue (edge : EdgeId)
  | missingNode (node : NodeId)
  | missingQueue (edge : EdgeId)
  | elementSizeMismatch (edge : EdgeId) (expected actual : UInt64)
  | queue (edge : EdgeId) (error : FifoError)
  | nodeInit (node : NodeId) (code : StatusCode)
  deriving DecidableEq, Repr

namespace BindError

def code : BindError → StatusCode
  | nodeInit .. => .nodeInitFailure
  | elementSizeMismatch .. => .typeMismatch
  | _ => .fatal

def message : BindError → String
  | unknownNode n => "node " ++ NodeId.text n ++ " is not in the compiled graph"
  | unknownEdge e => "edge " ++ EdgeId.text e ++ " is not in the compiled graph"
  | duplicateNode n => "node " ++ NodeId.text n ++ " is already bound"
  | duplicateQueue e => "edge " ++ EdgeId.text e ++ " already has storage"
  | missingNode n => "node " ++ NodeId.text n ++ " has no implementation"
  | missingQueue e => "edge " ++ EdgeId.text e ++ " has no storage"
  | elementSizeMismatch e expected actual =>
    "edge " ++ EdgeId.text e ++ " carries " ++ Decimal.text expected.toNat
      ++ "-byte elements, bound type has " ++ Decimal.text actual.toNat ++ " bytes"
  | queue e error => "edge " ++ EdgeId.text e ++ ": " ++ error.message
  | nodeInit n code => "node " ++ NodeId.text n ++ " failed to initialize: " ++ code.text

end BindError

structure Binding (κ : Type) [ElementKind κ] (σ ω : Type) where
  plan : Plan
  nodes : List (Option (Instance κ σ ω))
  channels : List (Option (Channel κ))
  hooks : Hooks ω
  stop : StopToken
  /-- The first mistake. -/
  fault : Option BindError

namespace Binding

/-- Nothing is bound yet; `stop` is the engine's own stop token. -/
def start (plan : Plan) (stop : StopToken) : Binding κ σ ω where
  plan := plan
  nodes := List.replicate plan.graph.nodes.length none
  channels := List.replicate plan.graph.edges.length none
  hooks := .none
  stop := stop
  fault := none

def fail (b : Binding κ σ ω) (e : BindError) : Binding κ σ ω := { b with fault := some e }

def node (b : Binding κ σ ω) (n : NodeId) (i : Instance κ σ ω) : Binding κ σ ω :=
  if b.fault.isSome then b
  else
    match b.nodes[n]? with
    | none => b.fail (.unknownNode n)
    | some (some _) => b.fail (.duplicateNode n)
    | some none => { b with nodes := b.nodes.set n (some i) }

/-- Binds the queue that `make` gives for the capacity and the delay of an edge. -/
def queue (b : Binding κ σ ω) (id : EdgeId) (k : κ)
    (make : (capacity delay : Nat) → Except FifoError (Fifo (ElementKind.Carrier k))) :
    Binding κ σ ω :=
  if b.fault.isSome then b
  else
    match b.plan.graph.edges[id]? with
    | none => b.fail (.unknownEdge id)
    | some e =>
      if e.element.size ≠ ElementKind.size k then
        b.fail (.elementSizeMismatch id e.element.size (ElementKind.size k))
      else if (b.channels[id]?.join).isSome then b.fail (.duplicateQueue id)
      else
        match make ((b.plan.capacity? id).getD 0) e.delay.toNat with
        | .error error => b.fail (.queue id error)
        | .ok q => { b with channels := b.channels.set id (some ⟨k, q⟩) }

/-- A queue whose initial tokens are blank. -/
def fifo (b : Binding κ σ ω) (id : EdgeId) (k : κ) : Binding κ σ ω :=
  b.queue id k (Fifo.new (ElementKind.blank k))

/-- A queue in storage of the host, the first elements of which are the initial tokens. -/
def fifoStorage (b : Binding κ σ ω) (id : EdgeId) (k : κ)
    (storage : List (ElementKind.Carrier k)) : Binding κ σ ω :=
  b.queue id k (Fifo.ofStorage storage)

/-- A queue for every edge that has none. -/
def fifoAll (b : Binding κ σ ω) (k : κ) : Binding κ σ ω :=
  (List.range b.channels.length).foldl
    (fun b id ↦ if (b.channels[id]?.join).isNone then b.fifo id k else b) b

def withHooks (b : Binding κ σ ω) (hooks : Hooks ω) : Binding κ σ ω := { b with hooks := hooks }

def withStop (b : Binding κ σ ω) (stop : StopToken) : Binding κ σ ω := { b with stop := stop }

/-- What was never bound: the first such node, else the first such edge. -/
def missing (b : Binding κ σ ω) : Option BindError :=
  match b.nodes.findIdx? (·.isNone) with
  | some n => some (.missingNode n)
  | none => (b.channels.findIdx? (·.isNone)).map .missingQueue

/-- Starts the nodes from number `first` on, until one refuses. -/
def initNodes (first : NodeId) :
    List (Instance κ σ ω) → World ω → Except BindError (List (Instance κ σ ω)) × World ω
  | [], w => (.ok [], w)
  | i :: rest, w =>
    match i.behaviour.init (i.memory, w) with
    | (.error e, _, w) => (.error (.nodeInit first e.code), w)
    | (.ok (), memory, w) =>
      match initNodes (first + 1) rest w with
      | (.error e, w) => (.error e, w)
      | (.ok started, w) => (.ok (⟨i.behaviour, memory⟩ :: started), w)

/-- The engine, and the surroundings after its nodes have started. -/
def build (b : Binding κ σ ω) (w : World ω) : Except BindError (Engine κ σ ω) × World ω :=
  match b.fault.orElse (fun _ ↦ b.missing) with
  | some e => (.error e, w)
  | none =>
    match initNodes 0 (b.nodes.filterMap id) w with
    | (.error e, w) => (.error e, w)
    | (.ok nodes, w) =>
      (.ok
        { plan := b.plan
          nodes := nodes
          channels := b.channels.filterMap id
          hooks := b.hooks
          stop := b.stop
          poisoned := none
          cursor := 0 }, w)

end Binding

namespace Session

/-- Makes a callback of every node, in the order of declaration. -/
def callNodes (s : Session κ σ ω) (callback : Behaviour κ σ ω → Callback σ ω Unit) :
    Session κ σ ω :=
  (List.range s.engine.nodes.length).foldl (fun s n ↦ (s.callNode n () callback).2) s

/-- Puts queues, nodes and cursor back to where they were when the engine was built. The status and
the parked states of the context are dropped; its counters stay. -/
def reinitialize (s : Session κ σ ω) : Session κ σ ω :=
  let s := s.modifyContext (·.clearStates.clearError)
  let s := { s with engine := { s.engine with channels := s.engine.channels.map Channel.reset } }
  let s := s.callNodes (·.reset)
  { s with engine := { s.engine with poisoned := none, cursor := 0 } }

/-- Tells every node that its engine is given up. -/
def teardown (s : Session κ σ ω) : Session κ σ ω := s.callNodes (·.teardown)

end Session

end Dataflow
