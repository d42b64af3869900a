import Dataflow.Engine.Basic

/-!
# Single firings

A host can fire one node at a time: one that it names, or the next that is ready in the firing order,
searched for from behind the one that was found last.
-/

namespace Dataflow

variable {κ : Type} [ElementKind κ] {σ ω : Type}

inductive Activation where
  | fired (node : NodeId)
  /-- The node ran and declined. -/
  | skipped (node : NodeId)
  /-- The node named is not ready. -/
  | notReady (node : NodeId)
  /-- No node is ready. -/
  | idle
  | stopped
  | failed (failure : Failure)
  deriving DecidableEq, Repr

namespace Session

/-- Records a failure in the context. -/
def reject (s : Session κ σ ω) (f : Failure) : Activation × Session κ σ ω :=
  (.failed f, s.modifyContext (·.fail f))

/-- Nothing is fired by an unusable engine, nor after a stop request. -/
def enter (s : Session κ σ ω) : Option Activation × Session κ σ ω :=
  match s.engine.refusal with
  | some f =>
    let (answer, s) := s.reject f
    (some answer, s)
  | none =>
    if s.stopRequested then (some .stopped, s)
    else (none, s.modifyContext (·.clearError))

/-- Fires a node that is ready. -/
def fireOnce (s : Session κ σ ω) (n : NodeId) : Activation × Session κ σ ω :=
  match s.fire n (s.engine.plan.mode = .fullyAsynchronous) with
  | (.ok .success, s) => (.fired n, s)
  | (.ok .skip, s) => (.skipped n, s.modifyContext (·.noteSkip))
  | (.error f, s) => s.reject f

def putCursor (s : Session κ σ ω) (cursor : Nat) : Session κ σ ω :=
  { s with engine := { s.engine with cursor := cursor } }

/-- Looks at `steps` positions of the firing order, from `position` on and round its end, and fires
the first node that is ready. -/
def search (order : List NodeId) :
    (steps position : Nat) → Session κ σ ω → Activation × Session κ σ ω
  | 0, _, s => (.idle, s.modifyContext (·.noteSkip))
  | steps + 1, position, s =>
    let here := position % order.length
    match order[here]? with
    | none => (.idle, s.modifyContext (·.noteSkip))
    | some n =>
      match s.readiness n with
      | (.skip, s) => search order steps (here + 1) (s.modifyContext (·.recordSkip n))
      | (.fatal code, s) =>
        let (f, s) := s.failNode n (.fatal code)
        s.reject f
      | (.proceed, s) => (s.putCursor ((here + 1) % order.length)).fireOnce n

/-- Fires the next node of the firing order that is ready. -/
def activateNext (s : Session κ σ ω) : Activation × Session κ σ ω :=
  match s.enter with
  | (some answer, s) => (answer, s)
  | (none, s) =>
    let order := s.engine.plan.firingOrder
    search order order.length s.engine.cursor s

/-- Fires node `n`, if it is ready. -/
def activate (s : Session κ σ ω) (n : NodeId) : Activation × Session κ σ ω :=
  match s.enter with
  | (some answer, s) => (answer, s)
  | (none, s) =>
    if s.engine.plan.graph.nodes.length ≤ n then s.reject ⟨.invalidPort, n, 0, false⟩
    else
      match s.readiness n with
      | (.proceed, s) => s.fireOnce n
      | (.skip, s) => (.notReady n, (s.modifyContext (·.recordSkip n)).modifyContext (·.noteSkip))
      | (.fatal code, s) =>
        let (f, s) := s.failNode n (.fatal code)
        s.reject f

end Session

end Dataflow
