import Dataflow.Engine.Blob
import Dataflow.Engine.Status

/-!
# Execution contexts

A context holds what one line of execution knows besides the queues: the status of its last call,
counters, a bound on the number of periods, and the parked states of nodes. `reset` clears the status
and the counters; the bound and the parked states stay.
-/

namespace Dataflow

/-! ## Counters by node -/

/-- One count per node, of machine words. Nodes behind the end of the list have the count 0. -/
abbrev SkipCounts := List UInt32

namespace SkipCounts

def get (s : SkipCounts) (n : NodeId) : UInt32 := s[n]?.getD 0

/-- Adds one to the count of a node. -/
def bump : SkipCounts → NodeId → SkipCounts
  | [], 0 => [1]
  | [], n + 1 => 0 :: bump [] n
  | count :: rest, 0 => (count + 1) :: rest
  | count :: rest, n + 1 => count :: bump rest n

theorem get_bump (s : SkipCounts) (n m : NodeId) :
    (s.bump n).get m = if m = n then s.get n + 1 else s.get m := by
  induction s, n using bump.induct generalizing m with
  | case1 => cases m <;> simp [bump, get]
  | case2 n ih =>
    cases m with
    | zero => simp [bump, get]
    | succ m => simpa [bump, get] using ih m
  | case3 count rest => cases m <;> simp [bump, get]
  | case4 count rest n ih =>
    cases m with
    | zero => simp [bump, get]
    | succ m => simpa [bump, get] using ih m

end SkipCounts

/-! ## Parked states -/

/-- At most one blob per node. -/
structure Parking where
  entries : List (NodeId × Blob)
  deriving DecidableEq, Repr

namespace Parking

def empty : Parking := ⟨[]⟩

def get? (p : Parking) (n : NodeId) : Option Blob := p.entries.lookup n

def remove (p : Parking) (n : NodeId) : Parking := ⟨p.entries.filter (·.1 != n)⟩

def put (p : Parking) (n : NodeId) (b : Blob) : Parking := ⟨(n, b) :: (p.remove n).entries⟩

theorem get?_remove (p : Parking) (n m : NodeId) :
    (p.remove n).get? m = if m = n then none else p.get? m := by
  obtain ⟨entries⟩ := p
  simp only [get?, remove]
  induction entries with
  | nil => simp
  | cons entry rest ih =>
    obtain ⟨key, blob⟩ := entry
    simp only [List.filter_cons, List.lookup_cons]
    grind

theorem get?_put (p : Parking) (n m : NodeId) (b : Blob) :
    (p.put n b).get? m = if m = n then some b else p.get? m := by
  have h := get?_remove p n m
  simp only [get?] at h
  simp only [put, get?, List.lookup_cons, h]
  grind

end Parking

/-! ## Contexts -/

structure Context where
  code : StatusCode
  failure : Option Failure
  /-- Periods completed. -/
  iterations : Nat
  /-- Firings begun. -/
  activations : Nat
  /-- The number of periods after which a run ends. -/
  limit : Option Nat
  /-- For each node, how often it was not ready in this period. -/
  periodSkips : SkipCounts
  totalSkips : Nat
  parked : Parking
  deriving DecidableEq, Repr

/-- How a run ended. -/
structure RunReport where
  code : StatusCode
  iterations : Nat
  failure : Option Failure
  deriving DecidableEq, Repr

def RunReport.isOk (r : RunReport) : Bool := !r.code.isError

namespace Context

def new (limit : Option Nat) : Context where
  code := .success
  failure := none
  iterations := 0
  activations := 0
  limit := limit
  periodSkips := []
  totalSkips := 0
  parked := .empty

/-- A new context apart from the bound and the parked states, which are kept. -/
def reset (c : Context) : Context := { new c.limit with parked := c.parked }

def withLimit (c : Context) (limit : Option Nat) : Context := { c with limit := limit }

def clearStates (c : Context) : Context := { c with parked := .empty }

def beginPeriod (c : Context) : Context := { c with periodSkips := [] }

def completePeriod (c : Context) : Context := { c with iterations := c.iterations + 1 }

def recordActivation (c : Context) : Context := { c with activations := c.activations + 1 }

def recordSkip (c : Context) (n : NodeId) : Context :=
  { c with periodSkips := c.periodSkips.bump n, totalSkips := c.totalSkips + 1 }

def clearError (c : Context) : Context := { c with code := .success, failure := none }

def noteSkip (c : Context) : Context := { c with code := .skip }

def fail (c : Context) (f : Failure) : Context := { c with code := f.code, failure := some f }

def park (c : Context) (n : NodeId) (b : Blob) : Context := { c with parked := c.parked.put n b }

def unpark (c : Context) (n : NodeId) : Context := { c with parked := c.parked.remove n }

def report (c : Context) : RunReport := ⟨c.code, c.iterations, c.failure⟩

end Context

end Dataflow
