import Dataflow.Text.Decimal

/-!
# Ports and what they carry

A port moves a fixed number of elements of one type in each firing of its node. It is addressed by
node, direction and slot.
-/

namespace Dataflow

/-- The index of a node in the order of declaration. -/
abbrev NodeId := Nat

/-- The index of an edge in the order of connection. -/
abbrev EdgeId := Nat

def NodeId.text (n : NodeId) : String := "NodeId(" ++ Decimal.text n ++ ")"

def EdgeId.text (e : EdgeId) : String := "EdgeId(" ++ Decimal.text e ++ ")"

/-- Two element types agree when both the name and the size in bytes do. -/
structure ElementType where
  name : String
  size : UInt64
  deriving DecidableEq, Repr

def ElementType.text (t : ElementType) : String :=
  t.name ++ "(" ++ Decimal.text t.size.toNat ++ "B)"

/-- The declaration of one port: `rate` elements of type `element` per firing. -/
structure Port where
  element : ElementType
  rate : UInt32
  deriving DecidableEq, Repr

inductive Direction where
  | input
  | output
  deriving DecidableEq, Repr

def Direction.text : Direction → String
  | .input => "input"
  | .output => "output"

structure PortRef where
  node : NodeId
  direction : Direction
  slot : Nat
  deriving DecidableEq, Repr

def PortRef.text (p : PortRef) : String :=
  "node " ++ Decimal.text p.node ++ " " ++ p.direction.text ++ " " ++ Decimal.text p.slot

/-- The port a node reads from at `slot`. -/
def PortRef.into (node : NodeId) (slot : Nat) : PortRef := ⟨node, .input, slot⟩

/-- The port a node writes to at `slot`. -/
def PortRef.out (node : NodeId) (slot : Nat) : PortRef := ⟨node, .output, slot⟩

end Dataflow
