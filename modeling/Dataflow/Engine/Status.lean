import Dataflow.Fifo.Error
import Dataflow.Graph.Port

/-!
# Status codes and failures

A status code is a number that engine and host share. Zero is success, positive codes are no errors,
negative ones are. The codes from -100 down belong to the nodes.
-/

namespace Dataflow

structure StatusCode where
  raw : Int32
  deriving DecidableEq, Repr

namespace StatusCode

def success : StatusCode := ⟨0⟩

/-- Nothing fired. -/
def skip : StatusCode := ⟨1⟩

def bufferUnderflow : StatusCode := ⟨-1⟩

def bufferOverflow : StatusCode := ⟨-2⟩

def nodeInitFailure : StatusCode := ⟨-3⟩

def fatal : StatusCode := ⟨-4⟩

def typeMismatch : StatusCode := ⟨-5⟩

def invalidPort : StatusCode := ⟨-6⟩

/-- A node moved another number of elements than it declares. -/
def rateMismatch : StatusCode := ⟨-7⟩

/-- Error `n` of a node. -/
def node (n : UInt16) : StatusCode := ⟨Int32.ofInt (-100 - n.toNat)⟩

def isError (c : StatusCode) : Bool := c.raw.toInt < 0

/-- The number of a node's own error. -/
def nodeCode? (c : StatusCode) : Option UInt16 :=
  let n := -100 - c.raw.toInt
  if 0 ≤ n ∧ n ≤ 65535 then some (UInt16.ofNat n.toNat) else none

def text (c : StatusCode) : String :=
  let number := Decimal.intText c.raw.toInt
  let named (name : String) := name ++ " (" ++ number ++ ")"
  if c = success then named "success"
  else if c = skip then named "skip"
  else if c = bufferUnderflow then named "buffer underflow"
  else if c = bufferOverflow then named "buffer overflow"
  else if c = nodeInitFailure then named "node init failure"
  else if c = fatal then named "fatal"
  else if c = typeMismatch then named "type mismatch"
  else if c = invalidPort then named "invalid port"
  else if c = rateMismatch then named "rate mismatch"
  else
    match c.nodeCode? with
    | some n => named ("node error " ++ Decimal.text n.toNat)
    | none => "code " ++ number

end StatusCode

/-- How a callback of a node fails. A recoverable error ends the run at hand; after a fatal one the
engine refuses to go on. -/
inductive NodeError where
  | recoverable (code : StatusCode)
  | fatal (code : StatusCode)
  deriving DecidableEq, Repr

namespace NodeError

def code : NodeError → StatusCode
  | recoverable c | fatal c => c

def isFatal : NodeError → Bool
  | recoverable _ => false
  | fatal _ => true

/-- Lack of elements or of room can pass; the other faults of a queue cannot. -/
def ofFifo : FifoError → NodeError
  | .underflow .. => recoverable .bufferUnderflow
  | .overflow .. => recoverable .bufferOverflow
  | _ => fatal .fatal

def invalidPort : NodeError := recoverable .invalidPort

def typeMismatch : NodeError := recoverable .typeMismatch

def rateMismatch : NodeError := recoverable .rateMismatch

end NodeError

/-- How a firing ends well: the node moved its declared rates, or it moved nothing. -/
inductive RunStatus where
  | success
  | skip
  deriving DecidableEq, Repr

/-- What a node says to the question whether it can fire. -/
inductive Readiness where
  | proceed
  | skip
  | fatal (code : StatusCode)
  deriving DecidableEq, Repr

/-- How a firing ended, as observers see it. -/
inductive Outcome where
  | success
  | skipped
  | failed (code : StatusCode)
  deriving DecidableEq, Repr

def Outcome.of : Except NodeError RunStatus → Outcome
  | .ok .success => success
  | .ok .skip => skipped
  | .error e => failed e.code

structure Failure where
  code : StatusCode
  node : NodeId
  /-- The number under which the graph declares the node. -/
  diagnostic : UInt32
  fatal : Bool
  deriving DecidableEq, Repr

end Dataflow
