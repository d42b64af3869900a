import Dataflow.Fifo.Basic

/-!
# Queues of one kind of element among many

A graph joins nodes that exchange elements of different kinds, so its queues are kept as channels: a
kind together with a queue of elements of that kind. The kinds are the host's choice.
-/

namespace Dataflow

/-- Kinds of elements: what the elements of each kind are, the bytes one takes, and the one that an
empty cell holds. -/
class ElementKind (κ : Type) where
  Carrier : κ → Type
  size : κ → UInt64
  blank : (k : κ) → Carrier k
  decEq : DecidableEq κ

namespace ElementKind

instance {κ : Type} [ElementKind κ] : DecidableEq κ := decEq

end ElementKind

structure Channel (κ : Type) [ElementKind κ] where
  kind : κ
  queue : Fifo (ElementKind.Carrier kind)

namespace Channel

variable {κ : Type} [ElementKind κ]

def available (c : Channel κ) : Nat := c.queue.size

def free (c : Channel κ) : Nat := c.queue.free

def capacity (c : Channel κ) : Nat := c.queue.capacity

def reset (c : Channel κ) : Channel κ := ⟨c.kind, c.queue.reset⟩

/-- The bytes of one element. -/
def elementSize (c : Channel κ) : UInt64 := ElementKind.size c.kind

/-- Fills cells that the queue has lent out. A queue of another kind than `k` has lent none of them. -/
def fill (c : Channel κ) (k : κ) (r : Fifo.Region (ElementKind.Carrier k))
    (values : List (ElementKind.Carrier k)) : Channel κ :=
  if h : c.kind = k then ⟨k, (h ▸ c.queue).fill r values⟩ else c

/-- The queue, if its elements are of kind `k`. -/
def queue? (c : Channel κ) (k : κ) : Option (Fifo (ElementKind.Carrier k)) :=
  if h : c.kind = k then some (h ▸ c.queue) else none

@[simp]
theorem queue?_mk (k : κ) (q : Fifo (ElementKind.Carrier k)) :
    (⟨k, q⟩ : Channel κ).queue? k = some q := by
  simp [queue?]

theorem queue?_eq_none_iff (c : Channel κ) (k : κ) : c.queue? k = none ↔ c.kind ≠ k := by
  simp [queue?]

end Channel

end Dataflow
