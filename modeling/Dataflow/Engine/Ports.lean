import Dataflow.Engine.Status
import Dataflow.Fifo.Channel
import Dataflow.Graph.Basic

/-!
# What a node sees and does at its ports

A node knows the queues of its own edges only, by slot. `PortView` is what it sees of them, and a
`PortOp` is one thing it can do to them. An operation that fails changes nothing.
-/

namespace Dataflow

variable {κ : Type} [ElementKind κ]

/-! ## Views -/

/-- One port: its rate, and what its edge holds against that, which is elements for an input and free
places for an output. A port without an edge has nothing. -/
structure PortLevel where
  rate : Nat
  level : Option Nat
  deriving DecidableEq, Repr

/-- The edge does not allow a firing. -/
def PortLevel.isShort (p : PortLevel) : Bool :=
  match p.level with
  | none => true
  | some level => level < p.rate

structure PortView where
  node : NodeId
  inputs : List PortLevel
  outputs : List PortLevel
  deriving DecidableEq, Repr

namespace PortView

def willUnderflow (v : PortView) (slot : Nat) : Bool := (v.inputs[slot]?.map (·.isShort)).getD true

def willOverflow (v : PortView) (slot : Nat) : Bool := (v.outputs[slot]?.map (·.isShort)).getD true

def inputsReady (v : PortView) : Bool := v.inputs.all (!·.isShort)

def outputsReady (v : PortView) : Bool := v.outputs.all (!·.isShort)

end PortView

/-- The view of node `n` on the queues `channels`. -/
def Node.view (n : Node) (id : NodeId) (channels : List (Channel κ)) : PortView :=
  let levels (measure : Channel κ → Nat) (sockets : List Socket) : List PortLevel :=
    sockets.map fun s ↦
      ⟨s.port.rate.toNat, s.edge.bind fun e ↦ channels[e]?.map measure⟩
  ⟨id, levels Channel.available n.inputs, levels Channel.free n.outputs⟩

/-! ## Operations -/

open ElementKind (Carrier)

/-- The elements that a reading lends out in its two runs, as elements of kind `k`. -/
abbrev Lent (k : κ) := Fifo.Region (Carrier k)

/-- Operations on the ports of one node. All move exactly the rate of the port. -/
inductive PortOp (κ : Type) [ElementKind κ] where
  /-- Takes elements out of an input. -/
  | input (k : κ) (slot : Nat)
  /-- Adds elements to an output. `fill` computes them from what the cells held; where it gives too
  few, the old ones stay. -/
  | output (k : κ) (slot : Nat) (fill : Lent k → List (Carrier k))
  /-- Takes elements out of an input into a buffer of `length` places. -/
  | pop (k : κ) (slot : Nat) (length : Nat)
  | push (k : κ) (slot : Nat) (values : List (Carrier k))
  /-- Takes elements out of an input and adds elements to an output on another edge. -/
  | transform (source target : κ) (inSlot outSlot : Nat)
      (fill : Lent source → Lent target → List (Carrier target))

namespace PortOp

/-- What the node gets back. For cells to be written, that is what they held before. -/
def Result : PortOp κ → Type
  | input k _ => Lent k
  | output k _ _ => Lent k
  | pop k _ _ => List (Carrier k)
  | push _ _ _ => Unit
  | transform source target _ _ _ => Lent source × Lent target

end PortOp

/-! ## Access by slot -/

namespace Node

/-- The edge at an input, and its rate. -/
def inputAccess (n : Node) (slot : Nat) : Except NodeError (EdgeId × Nat) :=
  match n.inputs[slot]? with
  | some ⟨port, some e⟩ => .ok (e, port.rate.toNat)
  | _ => .error .invalidPort

/-- The edge at an output, and its rate. -/
def outputAccess (n : Node) (slot : Nat) : Except NodeError (EdgeId × Nat) :=
  match n.outputs[slot]? with
  | some ⟨port, some e⟩ => .ok (e, port.rate.toNat)
  | _ => .error .invalidPort

end Node

namespace Channel

/-- The queue of an edge, which must hold elements of kind `k`. -/
def typed (channels : List (Channel κ)) (k : κ) (e : EdgeId) :
    Except NodeError (Fifo (Carrier k)) :=
  match channels[e]?.bind (·.queue? k) with
  | some q => .ok q
  | none => .error .typeMismatch

def put (channels : List (Channel κ)) (k : κ) (e : EdgeId) (q : Fifo (Carrier k)) :
    List (Channel κ) :=
  channels.set e ⟨k, q⟩

end Channel

/-- A queue's fault as one of the node. -/
def NodeError.lift {α : Type} : Except FifoError α → Except NodeError α
  | .ok a => .ok a
  | .error e => .error (.ofFifo e)

/-- Cells that have been taken for writing on an edge, and what they are to be filled with. -/
structure Filling (κ : Type) [ElementKind κ] where
  edge : EdgeId
  kind : κ
  region : Lent kind
  values : List (Carrier kind)

def Filling.apply (f : Filling κ) (channels : List (Channel κ)) : List (Channel κ) :=
  channels.modify f.edge (·.fill f.kind f.region f.values)

/-- What an operation amounts to when nothing stands against it: the answer, the queues with their
cursors moved, and the cells that are still to be filled. -/
structure Reservation (κ : Type) [ElementKind κ] (α : Type) where
  answer : α
  channels : List (Channel κ)
  filling : Option (Filling κ)

/-- The queues after the operation. -/
def Reservation.commit {α : Type} (r : Reservation κ α) : List (Channel κ) :=
  match r.filling with
  | none => r.channels
  | some f => f.apply r.channels

def PortOp.reserve (n : Node) (channels : List (Channel κ)) :
    (op : PortOp κ) → Except NodeError (Reservation κ op.Result)
  | .input k slot => do
    let (e, rate) ← n.inputAccess slot
    let q ← Channel.typed channels k e
    let (r, q) ← NodeError.lift (q.reserveRead rate)
    return ⟨r, Channel.put channels k e q, none⟩
  | .output k slot fill => do
    let (e, rate) ← n.outputAccess slot
    let q ← Channel.typed channels k e
    let (r, q) ← NodeError.lift (q.reserveWrite rate)
    return ⟨r, Channel.put channels k e q, some ⟨e, k, r, fill r⟩⟩
  | .pop k slot length => do
    let (e, rate) ← n.inputAccess slot
    if length ≠ rate then throw .rateMismatch
    let q ← Channel.typed channels k e
    let (values, q) ← NodeError.lift (q.pop rate)
    return ⟨values, Channel.put channels k e q, none⟩
  | .push k slot values => do
    let (e, rate) ← n.outputAccess slot
    if values.length ≠ rate then throw .rateMismatch
    let q ← Channel.typed channels k e
    let (r, q) ← NodeError.lift (q.reserveWrite rate)
    return ⟨(), Channel.put channels k e q, some ⟨e, k, r, values⟩⟩
  | .transform source target inSlot outSlot fill => do
    let (ein, consumed) ← n.inputAccess inSlot
    let (eout, produced) ← n.outputAccess outSlot
    if ein = eout then throw .invalidPort
    let qin ← Channel.typed channels source ein
    let qout ← Channel.typed channels target eout
    if qin.willUnderflow consumed then throw (.recoverable .bufferUnderflow)
    if qout.willOverflow produced then throw (.recoverable .bufferOverflow)
    let (r, qin) ← NodeError.lift (qin.reserveRead consumed)
    let (w, qout) ← NodeError.lift (qout.reserveWrite produced)
    return ⟨(r, w), Channel.put (Channel.put channels source ein qin) target eout qout,
      some ⟨eout, target, w, fill r w⟩⟩

/-! ## Activities -/

/-- What a node does in one firing: looks at its ports and operations on them, each step with the
answers to those before, and a result at the end. -/
inductive Activity (κ : Type) [ElementKind κ] (α : Type) where
  | done (result : α)
  | look (next : PortView → Activity κ α)
  | call (op : PortOp κ) (next : Except NodeError op.Result → Activity κ α)

namespace Activity

variable {α β : Type}

def bind : Activity κ α → (α → Activity κ β) → Activity κ β
  | done a, f => f a
  | look next, f => look fun v ↦ (next v).bind f
  | call op next, f => call op fun answer ↦ (next answer).bind f

instance : Monad (Activity κ) where
  pure := done
  bind := bind

def view : Activity κ PortView := look done

def perform (op : PortOp κ) : Activity κ (Except NodeError op.Result) := call op done

/-- Carries an activity of node `n` out on the queues `channels`. -/
def exec (n : Node) (id : NodeId) : Activity κ α → List (Channel κ) → α × List (Channel κ)
  | done a, channels => (a, channels)
  | look next, channels => (next (n.view id channels)).exec n id channels
  | call op next, channels =>
    match op.reserve n channels with
    | .ok r => (next (.ok r.answer)).exec n id r.commit
    | .error e => (next (.error e)).exec n id channels

end Activity

end Dataflow
