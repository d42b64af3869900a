import Dataflow.Engine.Behaviour
import Dataflow.Engine.Context
import Dataflow.Schedule.Plan

/-!
# Engines and sessions

An engine holds what it takes to execute a plan: the nodes with their memories, the queue of every
edge, the observers and the stop token. A session puts an engine together with the context of the call
at hand and the surroundings. Its functions are the steps of which an execution is made up; each gives
the session after it.
-/

namespace Dataflow

variable {κ : Type} [ElementKind κ] {σ ω α : Type}

structure Engine (κ : Type) [ElementKind κ] (σ ω : Type) where
  plan : Plan
  nodes : List (Instance κ σ ω)
  channels : List (Channel κ)
  hooks : Hooks ω
  stop : StopToken
  /-- The fatal failure that made the engine unusable. -/
  poisoned : Option Failure
  /-- The position in the firing order where the next search for a ready node starts. -/
  cursor : Nat

namespace Engine

/-- What an unusable engine answers: the failure that made it so, as a fatal one. -/
def refusal (e : Engine κ σ ω) : Option Failure := e.poisoned.map ({ · with code := .fatal })

def isPoisoned (e : Engine κ σ ω) : Bool := e.poisoned.isSome

/-- The queue of an edge, if it holds elements of kind `k`. -/
def queue? (e : Engine κ σ ω) (id : EdgeId) (k : κ) : Option (Fifo (ElementKind.Carrier k)) :=
  e.channels[id]?.bind (·.queue? k)

def putQueue (e : Engine κ σ ω) (id : EdgeId) (k : κ) (q : Fifo (ElementKind.Carrier k)) :
    Engine κ σ ω :=
  { e with channels := Channel.put e.channels k id q }

end Engine

structure Session (κ : Type) [ElementKind κ] (σ ω : Type) where
  engine : Engine κ σ ω
  context : Context
  world : World ω

namespace Session

/-! ## Callbacks -/

def modifyContext (s : Session κ σ ω) (f : Context → Context) : Session κ σ ω :=
  { s with context := f s.context }

/-- Lets the observers see an event. -/
def observe (s : Session κ σ ω) (event : Hooks ω → World ω → World ω) : Session κ σ ω :=
  { s with world := event s.engine.hooks s.world }

def stopRequested (s : Session κ σ ω) : Bool := s.world.stops.isRaised s.engine.stop

/-- The session with another memory for node `n`. -/
def putMemory (s : Session κ σ ω) (n : NodeId) (memory : σ) : Session κ σ ω :=
  { s with engine :=
      { s.engine with nodes := s.engine.nodes.modify n ({ · with memory := memory }) } }

/-- Makes a callback of node `n`; an unknown node answers `absent`. -/
def callNode (s : Session κ σ ω) (n : NodeId) (absent : α)
    (callback : Behaviour κ σ ω → Callback σ ω α) : α × Session κ σ ω :=
  match s.engine.nodes[n]? with
  | none => (absent, s)
  | some i =>
    let (answer, memory, world) := callback i.behaviour (i.memory, s.world)
    (answer, { s with world := world }.putMemory n memory)

/-- Asks node `n` whether it can fire. -/
def readiness (s : Session κ σ ω) (n : NodeId) : Readiness × Session κ σ ω :=
  match s.engine.plan.graph.nodes[n]? with
  | none => (.skip, s)
  | some node => s.callNode n .skip (·.prepare (node.view n s.engine.channels))

/-! ## Failures -/

/-- The failure that an error of node `n` amounts to. A fatal one makes the engine unusable. -/
def failNode (s : Session κ σ ω) (n : NodeId) (error : NodeError) : Failure × Session κ σ ω :=
  let failure : Failure :=
    { code := error.code
      node := n
      diagnostic := (s.engine.plan.diagnosticCode? n).getD 0
      fatal := error.isFatal }
  let poisoned := if error.isFatal then some failure else s.engine.poisoned
  (failure, { s with engine := { s.engine with poisoned := poisoned } })

/-! ## One firing -/

/-- Gives node `n` its parked state back. The state is taken out of the context, but put back when
the node does not accept it. -/
def restoreParked (s : Session κ σ ω) (n : NodeId) : Except NodeError Unit × Session κ σ ω :=
  match s.context.parked.get? n with
  | none => (.ok (), s)
  | some blob =>
    match (s.modifyContext (·.unpark n)).callNode n (.ok ()) (·.restore blob) with
    | (.ok (), s) => (.ok (), s)
    | (.error e, s) => (.error e, s.modifyContext (·.park n blob))

/-- Parks the state of node `n`, if it has one. -/
def savePark (s : Session κ σ ω) (n : NodeId) : Session κ σ ω :=
  match s.callNode n none (·.save) with
  | (none, s) => s
  | (some blob, s) => s.modifyContext (·.park n blob)

end Session

/-- What a firing of node `n` that ends with `status` must add to edge `e`. -/
def Edge.change (e : Edge) (n : NodeId) : RunStatus → Int
  | .skip => 0
  | .success =>
    (if e.source.node = n then (e.production.toNat : Int) else 0)
      - (if e.target.node = n then (e.consumption.toNat : Int) else 0)

/-- The queues of all edges of node `n` changed as a firing that ends with `status` must change them.
`before` and `after` are the numbers of elements by edge. -/
def Graph.ratesHonored (g : Graph) (n : NodeId) (status : RunStatus) (before after : List Nat) :
    Bool :=
  (g.inputEdges n ++ g.outputEdges n).all fun id ↦
    let change := (g.edges[id]?.map (·.change n status)).getD 0
    ((after[id]?.getD 0 : Nat) : Int) - (before[id]?.getD 0 : Nat) = change

namespace Session

def levels (s : Session κ σ ω) : List Nat := s.engine.channels.map Channel.available

def putChannels (s : Session κ σ ω) (channels : List (Channel κ)) : Session κ σ ω :=
  { s with engine := { s.engine with channels := channels } }

/-- The queues, and the session without them. -/
def takeChannels (s : Session κ σ ω) : List (Channel κ) × Session κ σ ω :=
  (s.engine.channels, s.putChannels [])

/-- Lets node `n` run, and takes it to task when it did not move what it declares. -/
def execute (s : Session κ σ ω) (n : NodeId) : Except NodeError RunStatus × Session κ σ ω :=
  match s.engine.nodes[n]?, s.engine.plan.graph.nodes[n]? with
  | some i, some node =>
    let before := s.levels
    let activity := i.behaviour.run (i.memory, s.world)
    let (channels, s) := s.takeChannels
    let ((result, memory, world), channels) := activity.exec node n channels
    let s := ({ s with world := world }.putChannels channels).putMemory n memory
    match result with
    | .error e => (.error e, s)
    | .ok status =>
      if s.engine.plan.graph.ratesHonored n status before s.levels then (.ok status, s)
      else (.error .rateMismatch, s)
  | _, _ => (.error .invalidPort, s)

/-- One firing of node `n`. With `persist`, its state is taken from the context before and parked
there after it. -/
def fire (s : Session κ σ ω) (n : NodeId) (persist : Bool) :
    Except Failure RunStatus × Session κ σ ω :=
  let s := s.observe (·.beforeActivation n)
  let (restored, s) := if persist then s.restoreParked n else (.ok (), s)
  let (outcome, s) : Except NodeError RunStatus × Session κ σ ω :=
    match restored with
    | .error e => (.error e, s)
    | .ok () =>
      let (outcome, s) := s.execute n
      (outcome, if persist then s.savePark n else s)
  let s := s.modifyContext (·.recordActivation)
  let s := s.observe (·.afterActivation n (Outcome.of outcome))
  match outcome with
  | .ok status => (.ok status, s)
  | .error e =>
    let (failure, s) := s.failNode n e
    (.error failure, s)

end Session

end Dataflow
